import Xv6.FsRefs
import Xv6.SysFile

/-!
# Operations on locked inodes

Rules for what calls do while they hold locks, in terms of files, references and locks: reading
and changing directories, changing link counts, allocating an inode, and dropping a reference that
a call took for itself. `B` counts the references that processes hold between calls.
-/

namespace Xv6.Fs

open Function

open Prog

variable {sb : Superblock} {s s' : FsState} {F : Nat → File} {R B : Nat → Nat} {L : Finset Nat}
  {k i : Nat} {E : Fault → Prop} {f : File}

/-! ### Faults -/

/-- A panic, and the one of `ilock` on a free inode only if `T`. -/
def Halts (T : Prop) (e : Fault) : Prop := (∃ msg, e = .panic msg) ∧ (e = noType → T)

theorem halts_of_panic {T : Prop} {msg : String} (h : msg ≠ "ilock: no type") :
    Halts T (.panic msg) :=
  ⟨⟨msg, rfl⟩, fun hc => absurd (Fault.panic.inj hc) h⟩

theorem halts_noType {T : Prop} (h : T) : Halts T noType := ⟨⟨_, rfl⟩, fun _ => h⟩

theorem Halts.mono {T T' : Prop} {e : Fault} (h : Halts T e) (hT : T → T') : Halts T' e :=
  ⟨h.1, fun he => hT (h.2 he)⟩

@[simp] theorem halts_noCacheEntry (T : Prop) : Halts T noCacheEntry := halts_of_panic (by decide)

@[simp] theorem halts_outOfBlocks (T : Prop) : Halts T outOfBlocks := halts_of_panic (by decide)

@[simp] theorem halts_noInodes (T : Prop) : Halts T noInodes := halts_of_panic (by decide)

@[simp] theorem halts_dirFull (T : Prop) : Halts T dirFull := halts_of_panic (by decide)

/-! ### References of the running call -/

/-- Entry `k` of `s'` holds the new inode `i` of type `type`, locked; the rest is as in `s`. -/
structure NewEntry (s s' : FsState) (F : Nat → File) (R : Nat → Nat) (k i type : Nat) : Prop where
  lt : k < NINODE
  good : Good s'
  sb : s'.sb = s.sb
  files : files s' = update F i (File.new type)
  self : s'.icache k = ⟨i, R k + 1, true, true, (s'.icache k).din⟩
  others : ∀ l ≠ k, s'.icache l = s.icache l
  inum : 0 < R k → (s.icache k).inum = i

/-- The inodes without links are held by the references `B`. -/
def Anchored (s : FsState) (F : Nat → File) (B : Nat → Nat) : Prop :=
  ∀ i, (F i).type ≠ 0 → (F i).nlink = 0 → ∃ k, 0 < B k ∧ (s.icache k).inum = i

theorem Abs.anchored (h : Abs sb s F R L) : Anchored s F R := by
  intro i ht h0
  obtain ⟨k, -, hr, hi, -⟩ := h.orphan i ht h0
  exact ⟨k, hr, hi⟩

theorem Anchored.keep (h : Anchored s F B) (hk : Keep B s s') : Anchored s' F B := by
  intro i ht h0
  obtain ⟨k, hr, hi⟩ := h i ht h0
  exact ⟨k, hr, by rw [hk k hr, hi]⟩

theorem Anchored.mono (h : Anchored s F B) (hle : ∀ k, B k ≤ R k) : Anchored s F R := by
  intro i ht h0
  obtain ⟨k, hr, hi⟩ := h i ht h0
  exact ⟨k, lt_of_lt_of_le hr (hle k), hi⟩

/-- Dropping a reference of the call itself frees nothing. -/
theorem Abs.drop_anchored (h : Abs sb s F (inc B k) L) (ha : Anchored s F B) :
    drop F B k (s.icache k).inum = F := by
  rw [drop]
  split_ifs with hc
  · by_cases ht : (F (s.icache k).inum).type = 0
    · rw [← h.file_free ht, update_eq_self]
    · obtain ⟨l, hl, hi⟩ := ha _ ht hc.2
      have hlk := h.inum_inj (lt_of_lt_of_le hl (le_inc B k l)) inc_pos hi
      rw [hlk, hc.1] at hl
      omega
  · rfl

theorem Abs.iput_temp (h : Abs sb s F (inc B k) L) (ha : Anchored s F B) (hl : k ∉ L) :
    wp (Fs.iput k) s (fun _ s' => Abs sb s' F B L ∧ Keep B s s') E := by
  have hput := h.iput (E := E) inc_pos hl
  rwa [dec_inc, h.drop_anchored ha] at hput

theorem Abs.iunlockput (h : Abs sb s F R L) (hk : k ∈ L) :
    wp (iunlockput k) s (fun _ s' => Abs sb s' (drop F (dec R k) k (s.icache k).inum) (dec R k)
      (L.erase k) ∧ Keep (dec R k) s s') E := by
  have hr := (h.held k hk).1
  rw [Fs.iunlockput]
  refine wp_seq (h.iunlock hk) ?_
  rintro _ s₁ ⟨h₁, hk₁⟩
  refine wp_mono (h₁.iput hr (Finset.notMem_erase k L)) ?_
  rintro _ s₂ ⟨h₂, hk₂⟩
  have hle : ∀ l, dec R k l ≤ R l := by
    intro l
    by_cases hl : l = k
    · rw [hl, dec_self]
      omega
    · rw [dec_of_ne hl]
  rw [hk₁ k hr] at h₂
  exact ⟨h₂, (hk₁.mono hle).trans hk₂⟩

theorem Abs.iunlockput_temp (h : Abs sb s F (inc B k) L) (ha : Anchored s F B) (hk : k ∈ L) :
    wp (Fs.iunlockput k) s (fun _ s' => Abs sb s' F B (L.erase k) ∧ Keep B s s') E := by
  have hput := h.iunlockput (E := E) hk
  rwa [dec_inc, h.drop_anchored ha] at hput

/-! ### Changing a locked inode -/

theorem Abs.changed (h : Abs sb s F R L) (hk : k ∈ L) (hc : Changed s s' k f) :
    Abs sb s' (update F (s.icache k).inum f) R L ∧ ∀ l, (s'.icache l).inum = (s.icache l).inum := by
  have hr := (h.held k hk).1
  have hsame : ∀ l, (s'.icache l).inum = (s.icache l).inum ∧ (s'.icache l).ref = (s.icache l).ref ∧
      (s'.icache l).locked = (s.icache l).locked ∧ (s'.icache l).valid = (s.icache l).valid := by
    intro l
    by_cases hlk : l = k
    · rw [hlk, hc.inode]
      exact ⟨rfl, rfl, rfl, rfl⟩
    · rw [hc.others l hlk]
      exact ⟨rfl, rfl, rfl, rfl⟩
  refine ⟨⟨hc.sb.trans h.super, hc.good, by rw [hc.files, h.files], ?_, h.range, ?_, ?_, ?_⟩,
    fun l => (hsame l).1⟩
  · intro l hl
    rw [(hsame l).2.1, h.refs l hl]
  · intro l hl
    rw [(hsame l).2.2.1, h.lock l hl]
  · intro l hl
    rw [(hsame l).2.2.2]
    exact h.held l hl
  · intro j ht h0
    by_cases hj : j = (s.icache k).inum
    · exact ⟨k, h.range k hr, hr, by rw [(hsame k).1, hj], by rw [(hsame k).2.2.2, (h.held k hk).2]⟩
    · rw [update_of_ne hj] at ht h0
      obtain ⟨l, hl, hrl, hil, hvl⟩ := h.orphan j ht h0
      exact ⟨l, hl, hrl, by rw [(hsame l).1, hil], by rw [(hsame l).2.2.2, hvl]⟩

def File.setNlink (f : File) (n : Nat) : File := { f with nlink := n }

@[simp] theorem wp_incNlink {Q : Unit → FsState → Prop} : wp (incNlink k) s Q E ↔
    Q () (s.setDin k ((s.icache k).din.setNlink (((s.icache k).din.nlink + 1) % 2 ^ 16))) := Iff.rfl

@[simp] theorem wp_decNlink {Q : Unit → FsState → Prop} : wp (decNlink k) s Q E ↔
    Q () (s.setDin k ((s.icache k).din.setNlink
      (((s.icache k).din.nlink + (2 ^ 16 - 1)) % 2 ^ 16))) := Iff.rfl

theorem Abs.iupdate_nlink (h : Abs sb s F R L) (hk : k ∈ L) {n : Nat} (hn : n < 2 ^ 16) :
    wp (iupdate k) (s.setDin k ((s.icache k).din.setNlink n)) (fun _ s' => Abs sb s'
        (update F (s.icache k).inum ((F (s.icache k).inum).setNlink n)) R L ∧
      ∀ l, (s'.icache l).inum = (s.icache l).inum) E := by
  have hl := h.loaded hk
  have hact := h.good.active hl
  have hwf : ((s.icache k).din.setNlink n).Wf := { hact.wf with nlink := hn }
  have hup := iupdate_setDin (E := E) (d := (s.icache k).din.setNlink n) h.good hl rfl rfl hwf
    hact.live
  have hf : (F (s.icache k).inum).setNlink n = ⟨(s.icache k).din.type, (s.icache k).din.major,
      (s.icache k).din.minor, n, (s.icache k).din.size, byteAt s.disk (s.icache k).din⟩ := by
    rw [← h.files, h.good.file_eq hl]
    rfl
  rw [hf]
  exact wp_mono hup (fun _ _ hc => h.changed hk hc)

theorem Abs.nlink_eq (h : Abs sb s F R L) (hk : k ∈ L) :
    (s.icache k).din.nlink = (F (s.icache k).inum).nlink := by
  rw [← h.files, h.good.file_eq (h.loaded hk)]

theorem Abs.type_eq (h : Abs sb s F R L) (hk : k ∈ L) :
    (s.icache k).din.type = (F (s.icache k).inum).type := by
  rw [← h.files, h.good.file_eq (h.loaded hk)]

/-! ### Directories -/

theorem Abs.dirAt (h : Abs sb s F R L) (hk : k ∈ L) (hi : (s.icache k).inum = i)
    (hd : (F i).IsDir) : DirAt s k (F i) :=
  ⟨h.good, h.loaded hk, by rw [h.files, hi], hd⟩

theorem Abs.dirlookup_cases (h : Abs sb s F R L) (hk : k ∈ L) (hi : (s.icache k).inum = i)
    (hd : (F i).IsDir) (name : Name) :
    wp (dirlookup k name) s
      (fun r s' => match (F i).lookup (key (cstr name)) with
        | none => r = none ∧ s' = s
        | some m => ∃ l, r = some (l, 16 * m) ∧ Abs sb s' F (inc R l) L ∧ Keep R s s' ∧
            (s'.icache l).inum = (F i).inumAt m)
      (fun e => e = noCacheEntry ∧ ∀ l < NINODE, 0 < R l) := by
  refine wp_conseq (Fs.dirlookup_cases name (h.dirAt hk hi hd)) ?_ ?_
  · intro r s₁ hr
    cases hlook : (F i).lookup (key (cstr name)) with
    | none => rwa [hlook] at hr
    | some m =>
      rw [hlook] at hr
      obtain ⟨l, rfl, hg⟩ := hr
      exact ⟨l, rfl, h.got hg⟩
  · rintro e ⟨he, -, hfull⟩
    exact ⟨he, fun l hl => h.refs l hl ▸ hfull l hl⟩

theorem Abs.dirlookup (h : Abs sb s F R L) (hk : k ∈ L) (hi : (s.icache k).inum = i)
    (hd : (F i).IsDir) (name : Name) :
    wp (dirlookup k name) s
      (fun r s' => match (F i).lookup (key (cstr name)) with
        | none => r = none ∧ s' = s
        | some m => ∃ l, r = some (l, 16 * m) ∧ Abs sb s' F (inc R l) L ∧ Keep R s s' ∧
            (s'.icache l).inum = (F i).inumAt m)
      (fun e => e = noCacheEntry) :=
  wp_conseq (h.dirlookup_cases hk hi hd name) (fun _ _ hq => hq) (fun _ he => he.1)

/-- `dirlink` of a name that is not there yet. -/
theorem Abs.dirlink_none {T : Prop} (h : Abs sb s F R L) (hk : k ∈ L) (hi : (s.icache k).inum = i)
    (hd : (F i).IsDir) {name : Name} (inum : Nat) (hlook : (F i).lookup (key (cstr name)) = none) :
    wp (dirlink k name inum) s
      (fun r s' => r = 0 ∧ Abs sb s' (update F i
          ((F i).setEntry (F i).emptySlot inum name)) R L ∧
        ∀ l, (s'.icache l).inum = (s.icache l).inum)
      (Halts T) := by
  refine wp_conseq (Fs.dirlink_none (h.dirAt hk hi hd) hlook) ?_ ?_
  · rintro r s₁ ⟨hr, hc⟩
    have hch := h.changed hk hc
    rw [hi] at hch
    exact ⟨hr, hch⟩
  · rintro e (rfl | rfl | ⟨rfl, -⟩)
    · exact halts_noCacheEntry T
    · exact halts_outOfBlocks T
    · exact halts_dirFull T

/-! ### Allocating an inode -/

/-- The file that `create` starts with. -/
def File.create (type major minor : Nat) : File := ⟨type, major, minor, 1, 0, fun _ => 0⟩

theorem Abs.got_free (h : Abs sb s F R L) {s₀ : FsState} (hic : s₀.icache = s.icache)
    (hfree : (F i).type = 0) (hg : Got s₀ i k s') :
    k < NINODE ∧ k ∉ L ∧ (0 < R k → (s.icache k).inum = i) ∧
      s'.icache k = { s.icache k with inum := i, ref := R k + 1, valid := false } ∧
      ∀ l ≠ k, s'.icache l = s.icache l := by
  have hothers : ∀ x, ∀ l ≠ k, (s₀.putInode k x).icache l = s.icache l := by
    intro x l hl
    rw [putInode_icache, update_of_ne hl, hic]
  obtain ⟨hk, halt⟩ := hg
  have hrefs := h.refs k hk
  rw [hic] at halt
  rcases halt with ⟨hr, hi, rfl⟩ | ⟨-, hr, rfl⟩
  · have hpos : 0 < R k := by omega
    have hinv : (s.icache k).valid = false := by
      cases hv : (s.icache k).valid with
      | false => rfl
      | true =>
        obtain ⟨hd, hlive⟩ := h.good.cache k hk hr hv
        rw [hd, hi] at hlive
        rw [← h.files, Fs.files, view, fileOf_type] at hfree
        exact absurd hfree hlive
    refine ⟨hk, ?_, fun _ => hi, ?_, hothers _⟩
    · intro hkL
      rw [(h.held k hkL).2] at hinv
      cases hinv
    · rw [putInode_icache, update_self, ← hi, ← hinv, hrefs]
  · have hzero : R k = 0 := by omega
    refine ⟨hk, ?_, fun hc => by omega, ?_, hothers _⟩
    · intro hkL
      have := (h.held k hkL).1
      omega
    · rw [putInode_icache, update_self, hzero]

theorem NewEntry.loaded {type : Nat} (h : NewEntry s s' F R k i type) : Loaded s' k :=
  ⟨h.lt, by rw [h.self]; exact Nat.succ_pos _, by rw [h.self]⟩

theorem Abs.ialloc_ilock {T : Prop} {type : Nat} (h : Abs sb s F R L) (h0 : type ≠ 0)
    (ht : type < 2 ^ 16) {α : Type} {p : Nat → FsM α} {Q : α → FsState → Prop}
    (hp : ∀ k i s', (0 < i ∧ i < sb.ninodes) → (F i).type = 0 → k ∉ L →
      NewEntry s s' F R k i type → wp (p k) s' Q (Halts T)) :
    wp (do
      let k ← ialloc type
      Fs.ilock k
      p k) s Q (Halts T) := by
  refine wp_chain (ialloc_spec type s) ?_ ?_
  · rintro k s₁ ⟨i, hi, hfree, hg⟩
    obtain ⟨hgood₀, hfiles₀⟩ := newInode_good h.good hi hfree ht
    have hfree' : (F i).type = 0 := by rwa [← h.files, Fs.files, view, fileOf_type]
    have hgood₁ := Got.good hgood₀ hg
    obtain ⟨hk, hkL, hnum, hself₁, hothers₁⟩ :=
      h.got_free (show (newInode s i type).icache = s.icache from rfl) hfree' hg
    obtain ⟨hsb₁, -, hfiles₁⟩ := Got.frame hg
    have hsb₁' : s₁.sb = s.sb := hsb₁
    rw [hfiles₀ h0, h.files] at hfiles₁
    have hd : s₁.fetched k = dinodes s₁.sb s₁.disk i := by
      rw [FsState.fetched, hself₁, if_neg (by simp), dinodes, if_pos (by rwa [hsb₁'])]
    have hlive : (s₁.fetched k).type ≠ 0 := by
      have htype := congrArg File.type (congrFun hfiles₁ i)
      rw [update_self, Fs.files, view, fileOf_type, ← hd] at htype
      rwa [htype]
    have hunlocked : (s₁.icache k).locked = false := by
      rw [hself₁]
      have := (h.lock k hk).not.mpr hkL
      simpa using this
    have href : 0 < (s₁.icache k).ref := by
      rw [hself₁]
      exact Nat.succ_pos _
    refine wp_chain (ilock_spec href hunlocked) ?_ (fun _ he => absurd he.2.2 hlive)
    rintro _ s₂ ⟨hs₂, -⟩
    apply hp k i s₂ (by rwa [← h.super]) hfree' hkL
    refine ⟨hk, ?_, by rw [hs₂]; exact hsb₁', ?_, ?_, ?_, hnum⟩
    · rw [hs₂]
      refine hgood₁.putInode (fun _ _ => ⟨by rw [hd, hself₁], hlive⟩) ?_
      intro _ l hln hlk hrl hc
      exact hlk (hgood₁.unique l hln k hk hrl href hc)
    · rw [← hfiles₁, hs₂]
      rfl
    · rw [hs₂, putInode_icache, update_self, hself₁]
    · intro l hl
      rw [hs₂, putInode_icache, update_of_ne hl, hothers₁ l hl]
  · rintro e (rfl | rfl)
    · exact halts_noInodes T
    · exact halts_noCacheEntry T

theorem Abs.newEntry {type : Nat} {s₁ : FsState} (h : Abs sb s F R L)
    (hn : NewEntry s s₁ F R k i type) (hkL : k ∉ L) (hf : f.nlink ≠ 0) (hc : Changed s₁ s' k f) :
    Abs sb s' (update F i f) (inc R k) (insert k L) ∧ Keep R s s' ∧ (s'.icache k).inum = i := by
  have hinum₁ : (s₁.icache k).inum = i := by rw [hn.self]
  have hself : s'.icache k = ⟨i, R k + 1, true, true, (s'.icache k).din⟩ := by
    rw [hc.inode, hn.self]
  have hothers : ∀ l ≠ k, s'.icache l = s.icache l := by
    intro l hl
    rw [hc.others l hl, hn.others l hl]
  refine ⟨⟨by rw [hc.sb, hn.sb, h.super], hc.good, ?_, ?_, ?_, ?_, ?_, ?_⟩, ?_, by rw [hself]⟩
  · rw [hc.files, hn.files, hinum₁, update_idem]
  · intro l hl
    by_cases hlk : l = k
    · rw [hlk, hself, inc_self]
    · rw [hothers l hlk, inc_of_ne hlk, h.refs l hl]
  · intro l hl
    by_cases hlk : l = k
    · rw [hlk]
      exact hn.lt
    · rw [inc_of_ne hlk] at hl
      exact h.range l hl
  · intro l hl
    by_cases hlk : l = k
    · rw [hlk, hself]
      simp
    · rw [hothers l hlk, h.lock l hl]
      simp [hlk]
  · intro l hl
    by_cases hlk : l = k
    · rw [hlk, hself, inc_self]
      exact ⟨Nat.succ_pos _, rfl⟩
    · rw [hothers l hlk, inc_of_ne hlk]
      exact h.held l (by simpa [hlk] using hl)
  · intro j ht hj
    by_cases hji : j = i
    · rw [hji, update_self] at hj
      exact absurd hj hf
    · rw [update_of_ne hji] at ht hj
      obtain ⟨l, hl, hrl, hil, hvl⟩ := h.orphan j ht hj
      have hlk : l ≠ k := by
        rintro rfl
        exact hji (hil.symm.trans (hn.inum hrl))
      exact ⟨l, hl, by rwa [inc_of_ne hlk], by rw [hothers l hlk, hil], by rw [hothers l hlk, hvl]⟩
  · intro l hl
    by_cases hlk : l = k
    · subst hlk
      rw [hself, hn.inum hl]
    · rw [hothers l hlk]

theorem Abs.createInode {T : Prop} {type major minor : Nat} (h : Abs sb s F R L) (h0 : type ≠ 0)
    (ht : type < 2 ^ 16) (hmaj : major < 2 ^ 16) (hmin : minor < 2 ^ 16) :
    wp (createInode type major minor) s
      (fun k s' => ∃ i, (0 < i ∧ i < sb.ninodes) ∧ (F i).type = 0 ∧ k ∉ L ∧
        Abs sb s' (update F i (File.create type major minor)) (inc R k) (insert k L) ∧
        Keep R s s' ∧ (s'.icache k).inum = i)
      (Halts T) := by
  refine h.ialloc_ilock h0 ht (fun k i s₁ hi hfree hkL hn => ?_)
  have hfile := hn.good.file_eq hn.loaded
  have hinum : (s₁.icache k).inum = i := by rw [hn.self]
  rw [hinum, hn.files, update_self, File.new, File.mk.injEq] at hfile
  obtain ⟨htype, -, -, -, hsize, hbytes⟩ := hfile
  have hact := hn.good.active hn.loaded
  have hup := iupdate_setDin (E := Halts T) (d := { (s₁.icache k).din with
    major := major, minor := minor, nlink := 1 }) hn.good hn.loaded rfl rfl
    { hact.wf with major := hmaj, minor := hmin, nlink := Nat.one_lt_two_pow (by decide) } hact.live
  simp only [wp_bind, wp_getInode, wp_setInode, wp_pure]
  refine wp_mono hup ?_
  intro _ s₂ hc
  refine ⟨i, hi, hfree, hkL, ?_⟩
  have hnew := h.newEntry hn hkL (Nat.one_ne_zero) hc
  simp only [← htype, ← hsize, ← hbytes] at hnew
  exact hnew

end Xv6.Fs
