import Xv6.FsEffects

/-!
# States inside a call

`Ready` describes the states between calls and `Running` those inside one: every reference is to a
live inode. `Ran` relates the state that a call started in to the state that it has reached, once
its changes to the files are made; what remains then is to give back locks and references.
-/

namespace Xv6.Fs

open Prog

variable {sb : Superblock} {s s' s₁ : FsState} {F F' F₁ : Nat → File} {R B : Nat → Nat}
  {L : Finset Nat} {k l i cwd : Nat} {E : Fault → Prop} {a : Act}

/-- `Abs` with live inodes behind all references. -/
structure Running (sb : Superblock) (s : FsState) (F : Nat → File) (R : Nat → Nat)
    (L : Finset Nat) : Prop extends Abs sb s F R L where
  live : ∀ k, 0 < R k → (F (s.icache k).inum).type ≠ 0

/-- A state without calls in progress. -/
structure Ready (sb : Superblock) (s : FsState) (F : Nat → File) (B : Nat → Nat) : Prop
    extends Running sb s F B ∅ where
  sane : Sane sb.ninodes F
  root : ROOTINO < sb.ninodes
  small : sb.ninodes ≤ 2 ^ 16

theorem Abs.range_of_live (h : Abs sb s F R L) (hi : (F i).type ≠ 0) : 0 < i ∧ i < sb.ninodes := by
  rw [← h.files, Fs.files, view, fileOf_type] at hi
  rw [← h.super]
  exact dinodes_range hi

theorem Abs.nlink_lt (h : Abs sb s F R L) (i : Nat) : (F i).nlink < 2 ^ 16 := by
  by_cases hi : (F i).type = 0
  · rw [h.file_free hi]
    decide
  · rw [← h.files, Fs.files, view, fileOf_type] at hi
    rw [← h.files, Fs.files, view, fileOf_live hi]
    exact (dinodes_wf _ _ i).nlink

theorem Abs.drop_held (h : Abs sb s F R L) (hk : 0 < R k) (hl : 0 < dec R k l) :
    drop F (dec R k) k (s.icache k).inum (s.icache l).inum = F (s.icache l).inum := by
  rw [drop]
  split_ifs with hc
  · apply Function.update_of_ne
    intro hi
    by_cases hlk : l = k
    · rw [hlk, hc.1] at hl
      omega
    · rw [dec_of_ne hlk] at hl
      exact hlk (h.inum_inj hl hk hi)
  · rfl

theorem Running.of_drop (h : Running sb s F R L) (hk : 0 < R k) {L' : Finset Nat}
    (h' : Abs sb s' (drop F (dec R k) k (s.icache k).inum) (dec R k) L')
    (hkeep : Keep (dec R k) s s') :
    Running sb s' (drop F (dec R k) k (s.icache k).inum) (dec R k) L' := by
  refine ⟨h', fun l hl => ?_⟩
  rw [hkeep l hl, h.drop_held hk hl]
  apply h.live
  by_cases hlk : l = k
  · rwa [hlk]
  · rwa [dec_of_ne hlk] at hl

/-- A reference taken after `s` is to a live inode once it is locked. -/
theorem Running.ilock_new (h : Running sb s F R L) (h₁ : Abs sb s₁ F (inc R k) L)
    (hkeep : Keep R s s₁) (hk : k ∉ L)
    (hr : 0 < (s₁.icache k).inum ∧ (s₁.icache k).inum < sb.ninodes) :
    wp (Fs.ilock k) s₁ (fun _ s' => Running sb s' F (inc R k) (insert k L) ∧ Keep (inc R k) s₁ s')
      (fun e => e = noType ∧ (F (s₁.icache k).inum).type = 0) := by
  refine wp_mono (h₁.ilock inc_pos hk hr) ?_
  rintro _ s₂ ⟨h₂, hkeep₂⟩
  refine ⟨⟨h₂, fun l hl => ?_⟩, hkeep₂⟩
  by_cases hlk : l = k
  · rw [hlk]
    exact h₂.live (Finset.mem_insert_self k L)
  · rw [hkeep₂ l hl]
    rw [inc_of_ne hlk] at hl
    rw [hkeep l hl]
    exact h.live l hl

theorem Running.iunlock (h : Running sb s F R L) (hk : k ∈ L) :
    wp (Fs.iunlock k) s (fun _ s' => Running sb s' F R (L.erase k) ∧ Keep R s s') E := by
  refine wp_mono (h.toAbs.iunlock hk) ?_
  rintro _ s₁ ⟨h₁, hkeep⟩
  exact ⟨⟨h₁, fun l hl => by rw [hkeep l hl]; exact h.live l hl⟩, hkeep⟩

/-- A call that started in `s` has done `a` and reached `s'`. -/
structure Ran (sb : Superblock) (s : FsState) (F : Nat → File) (B : Nat → Nat) (a : Act)
    (s' : FsState) (F' : Nat → File) (R : Nat → Nat) (L : Finset Nat) : Prop where
  run : Running sb s' F' R L
  outcome : Outcome sb.ninodes F a F'
  keep : ∀ k, 0 < B k → 0 < R k → (s'.icache k).inum = (s.icache k).inum

theorem dec_le (R : Nat → Nat) (k l : Nat) : dec R k l ≤ R l := by
  by_cases hl : l = k
  · rw [hl, dec_self]
    omega
  · rw [dec_of_ne hl]

theorem Outcome.released (h : Outcome sb.ninodes F a F₁) (hr : Released F₁ F') :
    Outcome sb.ninodes F a F' := by
  obtain ⟨F₀, he, hf⟩ := h
  exact ⟨F₀, he, hf.trans hr⟩

namespace Ran

variable (h : Ran sb s F B a s₁ F₁ R L)
include h

theorem of_drop (hk : 0 < R k) {L' : Finset Nat}
    (h' : Abs sb s' (drop F₁ (dec R k) k (s₁.icache k).inum) (dec R k) L')
    (hkeep : Keep (dec R k) s₁ s') :
    Ran sb s F B a s' (drop F₁ (dec R k) k (s₁.icache k).inum) (dec R k) L' := by
  refine ⟨h.run.of_drop hk h' hkeep, h.outcome.released (released_drop _ _ _ _), ?_⟩
  intro l hb hl
  rw [hkeep l hl]
  exact h.keep l hb (lt_of_lt_of_le hl (dec_le R k l))

theorem iput (hk : 0 < R k) (hl : k ∉ L) :
    wp (Fs.iput k) s₁ (fun _ s' => Ran sb s F B a s'
      (drop F₁ (dec R k) k (s₁.icache k).inum) (dec R k) L) E :=
  wp_mono (h.run.toAbs.iput hk hl) (fun _ _ hq => h.of_drop hk hq.1 hq.2)

theorem iunlockput (hk : k ∈ L) :
    wp (Fs.iunlockput k) s₁ (fun _ s' => Ran sb s F B a s'
      (drop F₁ (dec R k) k (s₁.icache k).inum) (dec R k) (L.erase k)) E :=
  wp_mono (h.run.toAbs.iunlockput hk) (fun _ _ hq => h.of_drop (h.run.held k hk).1 hq.1 hq.2)

theorem iunlock (hk : k ∈ L) :
    wp (Fs.iunlock k) s₁ (fun _ s' => Ran sb s F B a s' F₁ R (L.erase k)) E := by
  refine wp_mono (h.run.iunlock hk) ?_
  rintro _ s₂ ⟨h₂, hkeep⟩
  exact ⟨h₂, h.outcome, fun l hb hl => by rw [hkeep l hl]; exact h.keep l hb hl⟩

end Ran

namespace Ready

theorem ran (_h : Ready sb s F B) (h' : Running sb s' F R L) (hkeep : Keep B s s') :
    Ran sb s F B .none s' F R L :=
  ⟨h', ⟨F, .same, Released.refl F⟩, fun k hk _ => hkeep k hk⟩

theorem ended (h : Ready sb s F B) (hr : Ran sb s F B a s' F' R ∅) : Ready sb s' F' R :=
  ⟨hr.run, hr.outcome.sane h.sane h.small, h.root, h.small⟩

theorem same (h : Ready sb s F B) (h' : Abs sb s' F B ∅) (hkeep : Keep B s s') : Ready sb s' F B :=
  ⟨⟨h', fun k hk => by rw [hkeep k hk]; exact h.live k hk⟩, h.sane, h.root, h.small⟩

theorem namex (h : Ready sb s F B) (hc : 0 < B cwd) (path : List UInt8) (nameiparent : Bool) :
    wp (namex path nameiparent cwd) s (fun r s' => Keep B s s' ∧
        Resolved sb F B (walkPath F nameiparent path (s.icache cwd).inum) r s')
      (Halts (Dangling F (s.icache cwd).inum)) :=
  h.toAbs.namex h.sane hc rfl (h.range_of_live (h.live cwd hc)) h.root path nameiparent

theorem walkPath_range (h : Ready sb s F B) (hc : 0 < B cwd) {nameiparent : Bool}
    {path : List UInt8} {j : Nat} {name : Name}
    (hw : walkPath F nameiparent path (s.icache cwd).inum = some (j, name)) :
    0 < j ∧ j < sb.ninodes := by
  refine walk_range h.sane ?_ hw
  split_ifs
  · exact ⟨by decide, h.root⟩
  · exact h.range_of_live (h.live cwd hc)

end Ready

theorem walkPath_reaches {nameiparent : Bool} {path : List UInt8} {c j : Nat} {name : Name}
    (hw : walkPath F nameiparent path c = some (j, name)) : Reaches F c j := by
  refine walk_reaches ?_ hw
  split_ifs
  · exact Reaches.root
  · exact Reaches.cwd

theorem Ready.namei_ilock (h : Ready sb s F B) (hc : 0 < B cwd) (path : List UInt8) {α : Type}
    {p : FsM α} {q : Nat → FsM α} {Q : α → FsState → Prop}
    (hE : ∀ e, Halts (Dangling F (s.icache cwd).inum) e → E e)
    (hnone : ∀ s', walkPath F false path (s.icache cwd).inum = none → Ready sb s' F B →
      Keep B s s' → wp p s' Q E)
    (hsome : ∀ l i name s', walkPath F false path (s.icache cwd).inum = some (i, name) →
      Running sb s' F (inc B l) {l} → Keep B s s' → (s'.icache l).inum = i →
      wp (q l) s' Q E) :
    wp (do
      match ← namei path cwd with
      | none => p
      | some ip =>
        Fs.ilock ip
        q ip) s Q E := by
  simp only [namei, wp_bind, wp_pure]
  refine wp_conseq (h.namex hc path false) ?_ hE
  rintro r s₁ ⟨hk₁, hres⟩
  cases hw : walkPath F false path (s.icache cwd).inum with
  | none =>
    rw [hw] at hres
    obtain ⟨rfl, h₁⟩ := hres
    exact hnone s₁ hw (h.same h₁ hk₁) hk₁
  | some w =>
    obtain ⟨i, name⟩ := w
    rw [hw] at hres
    obtain ⟨l, rfl, h₁, hi⟩ := hres
    simp only [Option.map_some, wp_bind]
    refine wp_conseq (h.toRunning.ilock_new h₁ hk₁ (Finset.notMem_empty l)
      (by rw [hi]; exact h.walkPath_range hc hw)) ?_ ?_
    · rintro _ s₂ ⟨h₂, hk₂⟩
      refine hsome l i name s₂ hw h₂ (hk₁.trans (hk₂.mono (le_inc B l))) ?_
      rw [hk₂ l inc_pos, hi]
    · rintro e ⟨rfl, hfree⟩
      rw [hi] at hfree
      exact hE _ (halts_noType ⟨i, walkPath_reaches hw, hfree⟩)

theorem Ready.nameiparent_ilock (h : Ready sb s F B) (hc : 0 < B cwd) (path : List UInt8)
    {α : Type} {p : FsM α} {q : Nat → Name → FsM α} {Q : α → FsState → Prop}
    (hnone : ∀ s', Ready sb s' F B → Keep B s s' →
      wp p s' Q (Halts (Dangling F (s.icache cwd).inum)))
    (hsome : ∀ l i name s', walkPath F true path (s.icache cwd).inum = some (i, name) →
      Running sb s' F (inc B l) {l} → Keep B s s' → (s'.icache l).inum = i → (F i).IsDir →
      wp (q l name) s' Q (Halts (Dangling F (s.icache cwd).inum))) :
    wp (do
      match ← nameiparent path cwd with
      | none => p
      | some (dp, name) =>
        Fs.ilock dp
        q dp name) s Q (Halts (Dangling F (s.icache cwd).inum)) := by
  simp only [nameiparent, wp_bind]
  refine wp_mono (h.namex hc path true) ?_
  rintro r s₁ ⟨hk₁, hres⟩
  cases hw : walkPath F true path (s.icache cwd).inum with
  | none =>
    rw [hw] at hres
    obtain ⟨rfl, h₁⟩ := hres
    exact hnone s₁ (h.same h₁ hk₁) hk₁
  | some w =>
    obtain ⟨i, name⟩ := w
    rw [hw] at hres
    obtain ⟨l, rfl, h₁, hi⟩ := hres
    simp only [wp_bind]
    refine wp_conseq (h.toRunning.ilock_new h₁ hk₁ (Finset.notMem_empty l)
      (by rw [hi]; exact h.walkPath_range hc hw)) ?_ ?_
    · rintro _ s₂ ⟨h₂, hk₂⟩
      have hdir := walk_parent hw
      refine hsome l i name s₂ hw h₂ (hk₁.trans (hk₂.mono (le_inc B l))) ?_
        ⟨hdir, (h.sane i hdir).whole⟩
      rw [hk₂ l inc_pos, hi]
    · rintro e ⟨rfl, hfree⟩
      rw [hi] at hfree
      exact halts_noType ⟨i, walkPath_reaches hw, hfree⟩

end Xv6.Fs
