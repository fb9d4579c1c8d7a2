import Xv6.FsContent
import Xv6.Mkfs

/-!
# Appending to files of an image

`mkfs` takes blocks from a counter, so the used blocks are those below it, and a file of `n` bytes
fills exactly its first `fileBlocks n` places. `iappend` keeps this and adds bytes to one file.
-/

namespace Xv6.Mkfs

open Function

open Prog Fs

/-- The blocks of a file of `n` bytes, with its indirect block. -/
def fileBlocks (n : Nat) : Nat :=
  (n + (BSIZE - 1)) / BSIZE + if n > NDIRECT * BSIZE then 1 else 0

/-- The file of inode `i` is being appended to; its inode is `d`. -/
structure Appending (s : MkState) (i : Nat) (d : Dinode) : Prop where
  vol : Volume (fun b => decide (b < s.freeblock)) sb s.img
    (update (dinodes sb s.img) i d)
  wf : d.Wf
  live : d.type ≠ 0
  range : 0 < i ∧ i < NINODES
  fresh : ∀ b, s.freeblock ≤ b → s.img b = Bytes.zero

/-- The first `n` places of an inode are filled. -/
def Exact (img : Nat → Block) (d : Dinode) (n : Nat) : Prop := ∀ k, ptr img d k ≠ 0 ↔ k < n

variable {s s' s'' : MkState} {i k n : Nat} {d d' d'' : Dinode} {E : Fault → Prop}

theorem layout_sb : Layout sb := ⟨by decide, by decide, by decide, by decide⟩

theorem Appending.held_eq (h : Appending s i d) :
    held s.img (update (dinodes sb s.img) i d) (i, k) = ptr s.img d k := by
  rw [held_live (by rw [update_self]; exact h.live), update_self]

theorem Appending.ptr_lt (h : Appending s i d) (hk : ptr s.img d k ≠ 0) :
    nmeta ≤ ptr s.img d k ∧ ptr s.img d k < s.freeblock := by
  rw [← h.held_eq] at hk ⊢
  exact ⟨(h.vol.owns.bounds hk).1, of_decide_eq_true (h.vol.owns.used_of_held hk)⟩

theorem used_succ (m : Nat) :
    (fun b => decide (b < m + 1)) = update (fun b => decide (b < m)) m true := by
  funext b
  by_cases hb : b = m
  · simp [hb]
  · rw [update_of_ne hb]
    exact decide_eq_decide.mpr (by omega)

/-- What an append has changed so far. -/
structure Extended (s s' : MkState) (i : Nat) (d d' : Dinode) : Prop where
  active : Appending s' i d'
  table : dinodes sb s'.img = dinodes sb s.img
  freeinode : s'.freeinode = s.freeinode
  sameMeta : SameMeta d d'
  apart : ∀ j l, j ≠ i → held s'.img (update (dinodes sb s'.img) i d') (j, l) =
    held s.img (update (dinodes sb s.img) i d) (j, l)

theorem Extended.refl (h : Appending s i d) : Extended s s i d d :=
  ⟨h, rfl, rfl, ⟨rfl, rfl, rfl, rfl, rfl⟩, fun _ _ _ => rfl⟩

theorem Extended.trans (h : Extended s s' i d d') (h' : Extended s' s'' i d' d'') :
    Extended s s'' i d d'' where
  active := h'.active
  table := h'.table.trans h.table
  freeinode := h'.freeinode.trans h.freeinode
  sameMeta := h.sameMeta.trans h'.sameMeta
  apart j l hj := (h'.apart j l hj).trans (h.apart j l hj)

/-- The files while inode `i` is `d`. -/
def viewOf (s : MkState) (i : Nat) (d : Dinode) : Nat → File :=
  view s.img (update (dinodes sb s.img) i d)

/-- `s'` arises from `s` by filling place `k` of `i` with the next block. -/
structure Took (s s' : MkState) (i : Nat) (d d' : Dinode) (k : Nat) : Prop where
  ext : Extended s s' i d d'
  counter : s'.freeblock = s.freeblock + 1
  ptr : ∀ l, ptr s'.img d' l = if l = k then s.freeblock else ptr s.img d l
  view : viewOf s' i d' = viewOf s i d

theorem took_of_held (h : Appending s i d) (hb : s.freeblock < FSSIZE) (hk : ptr s.img d k = 0)
    (hcount : s'.freeblock = s.freeblock + 1) (hinode : s'.freeinode = s.freeinode)
    (htable : dinodes sb s'.img = dinodes sb s.img) (hmeta : SameMeta d d') (hwf : d'.Wf)
    (hheld : held s'.img (update (dinodes sb s'.img) i d') = update (held s.img (update (dinodes sb
      s.img) i d)) (i, k) s.freeblock) (hone : s'.img 1 = s.img 1)
    (hfresh : ∀ b, s.freeblock ≤ b → s'.img b = Bytes.zero)
    (hsame : ∀ j l, l ≠ NDIRECT → held s.img (update (dinodes sb s.img) i d) (j, l) ≠ 0 → s'.img
      (held s.img (update (dinodes sb s.img) i d) (j, l)) = s.img (held s.img (update (dinodes sb
      s.img) i d) (j, l))) : Took s s' i d d' k := by
  have hx : held s.img (update (dinodes sb s.img) i d) (i, k) = 0 := by
    rw [h.held_eq, hk]
  have hmetas : ∀ j, SameMeta (update (dinodes sb s.img) i d j)
      (update (dinodes sb s'.img) i d' j) := by
    intro j
    by_cases hj : j = i
    · rw [hj, update_self, update_self]
      exact hmeta
    · rw [update_of_ne hj, update_of_ne hj, htable]
      exact ⟨rfl, rfl, rfl, rfl, rfl⟩
  have hvol : Volume (fun b => decide (b < s'.freeblock)) sb s'.img
      (update (dinodes sb s'.img) i d') := by
    rw [hcount, used_succ]
    exact h.vol.alloc hb (by simp) hx hheld hone
  have hactive : Appending s' i d' := by
    refine ⟨hvol, hwf, by rw [hmeta.type]; exact h.live, h.range, fun b hb => hfresh b ?_⟩
    omega
  refine ⟨⟨hactive, htable, hinode, hmeta, ?_⟩, hcount, ?_, ?_⟩
  · intro j l hj
    rw [hheld, update_of_ne (by simp [hj])]
  · intro l
    rw [← hactive.held_eq, hheld]
    by_cases hl : l = k
    · rw [hl, update_self, if_pos rfl]
    · rw [update_of_ne (by simpa using hl), if_neg hl, h.held_eq]
  · exact view_alloc hmetas hx hheld (hfresh _ le_rfl) hsame

theorem took_addr (h : Appending s i d) (hb : s.freeblock < FSSIZE) (hk : k ≤ NDIRECT)
    (h0 : ptr s.img d k = 0) (hs : s' = { s with freeblock := s.freeblock + 1 }) :
    Took s s' i d (d.setAddr k s.freeblock) k := by
  have himg : s'.img = s.img := by rw [hs]
  have haddr : d.addrs k = 0 := by rwa [ptr, if_pos hk] at h0
  have hheld : held s'.img (update (dinodes sb s'.img) i (d.setAddr k s.freeblock)) =
      update (held s.img (update (dinodes sb s.img) i d)) (i, k)
        s.freeblock := by
    rw [himg, ← update_idem (a := i) d]
    exact held_update_addr h.live (update_self _ _ _) hk haddr (h.fresh _ le_rfl)
      (fun _ _ => rfl)
  have hsize : s.freeblock < 2 ^ 32 := by
    simp only [FSSIZE] at hb
    omega
  exact took_of_held h hb h0 (by rw [hs]) (by rw [hs]) (by rw [himg]) ⟨rfl, rfl, rfl, rfl, rfl⟩
    (h.wf.setAddr hk hsize) hheld (by rw [himg]) (fun b hb => by rw [himg]; exact h.fresh b hb)
    (fun _ _ _ _ => by rw [himg])

theorem took_entry {ind m : Nat} (h : Appending s i d) (hb : s.freeblock < FSSIZE)
    (hm : m < NINDIRECT) (hind : d.addrs NDIRECT = ind) (hne : ind ≠ 0)
    (h0 : ptr s.img d (NDIRECT + 1 + m) = 0)
    (hs : s' = { s with
      freeblock := s.freeblock + 1
      img := update s.img ind ((s.img ind).setWord (4 * m) 4 s.freeblock) }) :
    Took s s' i d d (NDIRECT + 1 + m) := by
  have himg : s'.img = update s.img ind ((s.img ind).setWord (4 * m) 4 s.freeblock) := by
    rw [hs]
  have hptr : ptr s.img d NDIRECT = ind := by rw [ptr, if_pos le_rfl, hind]
  have hlt := h.ptr_lt (by rwa [hptr])
  rw [hptr] at hlt
  have hdata : dataStart sb = nmeta := rfl
  have hmap := layout_sb.bmapstart_lt
  have hone := layout_sb.one_lt_bmapstart
  have hdiff : ∀ x, x ≠ (i, NDIRECT) →
      held s.img (update (dinodes sb s.img) i d) x ≠ ind := by
    intro x hx hc
    refine hx (h.vol.owns.inj (by rwa [hc]) ?_)
    rw [hc, h.held_eq, hptr]
  have htable : dinodes sb s'.img = dinodes sb s.img := by
    rw [himg]
    exact dinodes_update layout_sb (by omega)
  have hsame : ∀ x, x ≠ (i, NDIRECT) →
      s'.img (held s.img (update (dinodes sb s.img) i d) x) =
        s.img (held s.img (update (dinodes sb s.img) i d) x) := by
    intro x hx
    rw [himg, update_of_ne (hdiff x hx)]
  have hsize : s.freeblock < 2 ^ 32 := by
    simp only [FSSIZE] at hb
    omega
  have hheld : held s'.img (update (dinodes sb s'.img) i d) =
      update (held s.img (update (dinodes sb s.img) i d))
        (i, NDIRECT + 1 + m) s.freeblock := by
    rw [htable]
    apply held_update_entry (by rw [update_self]; exact h.live) hm
      (by rw [update_self, hind]; exact hne) hsize
    · rw [update_self, hind, himg, update_self]
    · intro j hj _
      exact hsame _ (by simp [hj])
  refine took_of_held h hb h0 (by rw [hs]) (by rw [hs]) htable ⟨rfl, rfl, rfl, rfl, rfl⟩ h.wf hheld
    ?_ ?_ (fun j l hl _ => hsame _ (by simp [hl]))
  · rw [himg, update_of_ne (by omega)]
  · intro b hbb
    rw [himg, update_of_ne (by omega)]
    exact h.fresh b hbb

/-! ### Finding or taking a block -/

/-- The blocks of `i` went from `n` to `n'`, and no file changed. -/
structure Filled (s s' : MkState) (i : Nat) (d d' : Dinode) (n n' : Nat) : Prop where
  ext : Extended s s' i d d'
  view : viewOf s' i d' = viewOf s i d
  exact : Exact s'.img d' n'
  counter : s'.freeblock + n = s.freeblock + n'

theorem Filled.refl (h : Appending s i d) (hn : Exact s.img d n) : Filled s s i d d n n :=
  ⟨Extended.refl h, rfl, hn, rfl⟩

theorem Filled.trans {n' n'' : Nat} (h : Filled s s' i d d' n n')
    (h' : Filled s' s'' i d' d'' n' n'') : Filled s s'' i d d'' n n'' where
  ext := h.ext.trans h'.ext
  view := h'.view.trans h.view
  exact := h'.exact
  counter := by
    have h₁ := h.counter
    have h₂ := h'.counter
    omega

theorem nmeta_le {m : Nat} {img : Nat → Block} {tbl : Nat → Dinode}
    (h : Volume (fun b => decide (b < m)) sb img tbl) : nmeta ≤ m := by
  by_contra hlt
  have hmeta : nmeta = 59 := rfl
  have hused := h.owns.low (b := m) (by change _ < FSSIZE; simp only [FSSIZE]; omega)
    (Nat.not_le.mp hlt)
  simp at hused

theorem Took.filled (h : Appending s i d) (ht : Took s s' i d d' n) (hn : Exact s.img d n) :
    Filled s s' i d d' n (n + 1) := by
  refine ⟨ht.ext, ht.view, fun l => ?_, by rw [ht.counter]; omega⟩
  have hpos : s.freeblock ≠ 0 := by
    have hle := nmeta_le h.vol
    have hmeta : nmeta = 59 := rfl
    omega
  rw [ht.ptr]
  by_cases hl : l = n
  · rw [if_pos hl]
    exact ⟨fun _ => by omega, fun _ => hpos⟩
  · rw [if_neg hl, hn l]
    omega

@[simp] theorem wp_nextBlock {Q : Nat → MkState → Prop} :
    wp nextBlock s Q E ↔ Q s.freeblock { s with freeblock := s.freeblock + 1 } := Iff.rfl

@[simp] theorem wp_wsect (sec : Nat) (buf : Block) {Q : Unit → MkState → Prop} :
    wp (wsect sec buf) s Q E ↔ Q () { s with img := update s.img sec buf } := Iff.rfl

@[simp] theorem wp_rsect (sec : Nat) {Q : Block → MkState → Prop} :
    wp (rsect sec) s Q E ↔ Q (s.img sec) s := Iff.rfl

theorem wp_assert {c : Bool} (hc : c = true) (msg : String) {Q : Unit → MkState → Prop} :
    wp (assert c msg) s Q E ↔ Q () s := by
  rw [assert, if_pos hc, wp_pure]

theorem wp_assert_false {c : Bool} (hc : c = false) (msg : String) {Q : Unit → MkState → Prop} :
    wp (assert c msg) s Q E ↔ E (.panic msg) := by
  rw [assert, if_neg (by simp [hc]), wp_panicWith]

theorem appendAddr_spec (h : Appending s i d) (hn : Exact s.img d n) (hk : k ≤ NDIRECT)
    (hkn : k ≤ n) (hroom : k = n → s.freeblock < FSSIZE) :
    wp (appendAddr d k) s (fun d' s' => Filled s s' i d d' n (max n (k + 1))) E := by
  have hptr : ptr s.img d k = d.addrs k := if_pos hk
  have hfill := hn k
  rw [hptr] at hfill
  rw [appendAddr]
  by_cases h0 : d.addrs k = 0
  · have hkn' : k = n := by
      have : ¬ k < n := fun hlt => hfill.mpr hlt h0
      omega
    subst hkn'
    rw [if_pos h0, wp_bind, wp_nextBlock, wp_pure, max_eq_right (by omega)]
    exact (took_addr h (hroom rfl) hk (by rwa [hptr]) rfl).filled h hn
  · have hlt := hfill.mp h0
    rw [if_neg h0, wp_pure, max_eq_left (by omega)]
    exact Filled.refl h hn

theorem appendEntry_spec {m : Nat} (h : Appending s i d) (hn : Exact s.img d n) (hm : m < NINDIRECT)
    (hmn : NDIRECT + 1 + m ≤ n) (hroom : NDIRECT + 1 + m = n → s.freeblock < FSSIZE) :
    wp (appendEntry d m) s (fun x s' => x = ptr s'.img d (NDIRECT + 1 + m) ∧
      Filled s s' i d d n (max n (NDIRECT + 1 + m + 1))) E := by
  have hind : d.addrs NDIRECT ≠ 0 := by
    have h12 := (hn NDIRECT).mpr (by omega)
    rwa [ptr, if_pos le_rfl] at h12
  have hptr : ptr s.img d (NDIRECT + 1 + m) = (s.img (d.addrs NDIRECT)).word (4 * m) 4 := by
    rw [ptr, if_neg (by omega), if_pos ⟨by simp only [MAXFILE]; omega, hind⟩,
      Nat.add_sub_cancel_left]
  have hfill := hn (NDIRECT + 1 + m)
  rw [hptr] at hfill
  rw [appendEntry, wp_bind, wp_rsect]
  by_cases h0 : (s.img (d.addrs NDIRECT)).word (4 * m) 4 = 0
  · have hmn' : NDIRECT + 1 + m = n := by
      have : ¬ NDIRECT + 1 + m < n := fun hlt => hfill.mpr hlt h0
      omega
    subst hmn'
    rw [if_pos h0, wp_bind, wp_nextBlock, wp_bind, wp_wsect, wp_pure, max_eq_right (by omega)]
    have ht := took_entry h (hroom rfl) hm rfl hind (by rwa [hptr]) rfl
    refine ⟨?_, ht.filled h hn⟩
    rw [ht.ptr, if_pos rfl]
  · have hlt := hfill.mp h0
    rw [if_neg h0, wp_pure, max_eq_left (by omega)]
    exact ⟨hptr.symm, Filled.refl h hn⟩

theorem appendBlock_spec {off : Nat} (h : Appending s i d) (hn : Exact s.img d (fileBlocks off))
    (hbn : off / BSIZE < MAXFILE)
    (hroom : s.freeblock + (place (off / BSIZE) + 1) ≤ FSSIZE + fileBlocks off) :
    wp (appendBlock d (off / BSIZE)) s (fun r s' => r.1 = addrOf s'.img r.2 (off / BSIZE) ∧
      Filled s s' i d r.2 (fileBlocks off) (place (off / BSIZE) + 1)) E := by
  rw [appendBlock]
  by_cases hd : off / BSIZE < NDIRECT
  · have hplace : place (off / BSIZE) = off / BSIZE := if_pos hd
    have hN : off / BSIZE ≤ fileBlocks off ∧ fileBlocks off ≤ off / BSIZE + 1 := by
      simp only [fileBlocks, BSIZE, NDIRECT] at *
      split_ifs <;> omega
    rw [hplace] at hroom ⊢
    rw [if_pos hd]
    refine wp_seq (appendAddr_spec h hn hd.le hN.1 (by omega)) ?_
    intro d₁ s₁ hf
    rw [max_eq_right hN.2] at hf
    refine ⟨?_, hf⟩
    rw [addrOf, hplace, ptr, if_pos hd.le]
  · have hplace : place (off / BSIZE) = NDIRECT + 1 + (off / BSIZE - NDIRECT) := by
      rw [place, if_neg hd]
      omega
    have hN : NDIRECT ≤ fileBlocks off ∧ NDIRECT + 1 + (off / BSIZE - NDIRECT) ≤
        max (fileBlocks off) (NDIRECT + 1) ∧
        fileBlocks off ≤ NDIRECT + 1 + (off / BSIZE - NDIRECT) + 1 := by
      simp only [fileBlocks, BSIZE, NDIRECT] at *
      split_ifs <;> omega
    rw [hplace] at hroom ⊢
    rw [if_neg hd]
    refine wp_seq (appendAddr_spec h hn le_rfl hN.1 (by omega)) ?_
    intro d₁ s₁ hf
    have hcount := hf.counter
    have hentry := appendEntry_spec (E := E) hf.ext.active hf.exact
      (by simp only [MAXFILE] at hbn; omega) hN.2.1 (by omega)
    refine wp_seq hentry ?_
    rintro x s₂ ⟨hx, hf'⟩
    have hmax : max (max (fileBlocks off) (NDIRECT + 1))
        (NDIRECT + 1 + (off / BSIZE - NDIRECT) + 1) =
          NDIRECT + 1 + (off / BSIZE - NDIRECT) + 1 := by omega
    rw [hmax] at hf'
    refine ⟨?_, hf.trans hf'⟩
    rw [hx, addrOf, hplace]

/-! ### The loop -/

/-- `n` bytes of `p` went to the end of the first `off` bytes of `i`. -/
structure Appended (s s' : MkState) (i : Nat) (d d' : Dinode) (p : Nat → UInt8) (off n : Nat) :
    Prop where
  ext : Extended s s' i d d'
  view : viewOf s' i d' = update (viewOf s i d) i ((viewOf s i d i).patch off n p)
  exact : Exact s'.img d' (fileBlocks (off + n))
  counter : s'.freeblock + fileBlocks off = s.freeblock + fileBlocks (off + n)

theorem Appending.viewOf_self (h : Appending s i d) :
    viewOf s i d i = ⟨d.type, d.major, d.minor, d.nlink, d.size, byteAt s.img d⟩ := by
  rw [viewOf, view, update_self, fileOf_live h.live]

theorem appending_put {bn b : Nat} (h : Appending s i d) (hb : addrOf s.img d bn = b)
    (hb0 : b ≠ 0) (data : Block) (hs : s' = { s with img := update s.img b data }) :
    Extended s s' i d d ∧ (∀ k, ptr s'.img d k = ptr s.img d k) ∧
      viewOf s' i d = update (viewOf s i d) i { viewOf s i d i with
        bytes := fun x => if x / BSIZE = bn then data.get (x % BSIZE) else byteAt s.img d x } := by
  have himg : s'.img = update s.img b data := by rw [hs]
  have hi : (update (dinodes sb s.img) i d i).type ≠ 0 := by
    rw [update_self]
    exact h.live
  have hb' : addrOf s.img (update (dinodes sb s.img) i d i) bn = b := by
    rw [update_self, hb]
  have hlt := h.ptr_lt (k := place bn) (by rwa [← addrOf, hb])
  rw [← addrOf, hb] at hlt
  have hmap : sb.bmapstart < nmeta := layout_sb.bmapstart_lt
  have htable : dinodes sb s'.img = dinodes sb s.img := by
    rw [himg]
    exact dinodes_update layout_sb (by omega)
  have hheld : held s'.img (update (dinodes sb s'.img) i d) =
      held s.img (update (dinodes sb s.img) i d) := by
    rw [htable, himg, h.vol.held_write hi hb' hb0 data]
  have hactive : Appending s' i d := by
    refine ⟨?_, h.wf, h.live, h.range, ?_⟩
    · rw [htable, himg, hs]
      exact h.vol.write hi hb' hb0 data
    · intro c hc
      rw [hs] at hc
      rw [himg, update_of_ne (by have : s.freeblock ≤ c := hc; omega)]
      exact h.fresh c hc
  refine ⟨⟨hactive, htable, by rw [hs], ⟨rfl, rfl, rfl, rfl, rfl⟩, ?_⟩, ?_, ?_⟩
  · intro j l _
    rw [hheld]
  · intro k
    rw [← hactive.held_eq, hheld, h.held_eq]
  · rw [viewOf, htable, himg, h.vol.view_write hi hb' hb0 data, update_self]
    rfl

theorem iappendLoop_spec {fuel off : Nat} {p : Nat → UInt8} (h : Appending s i d)
    (hex : Exact s.img d (fileBlocks off)) (hmax : off + n ≤ MAXFILE * BSIZE)
    (hroom : s.freeblock + fileBlocks (off + n) ≤ FSSIZE + fileBlocks off) (hfuel : n ≤ fuel) :
    wp (iappendLoop fuel p n off d) s (fun d' s' => Appended s s' i d d' p off n) E := by
  induction fuel generalizing s p off n d with
  | zero =>
    have h0 : n = 0 := by omega
    subst h0
    refine ⟨Extended.refl h, ?_, hex, rfl⟩
    rw [File.patch_zero, update_eq_self]
  | succ fuel ih =>
    rw [iappendLoop]
    by_cases h0 : n = 0
    · subst h0
      rw [if_pos rfl]
      refine ⟨Extended.refl h, ?_, hex, rfl⟩
      rw [File.patch_zero, update_eq_self]
    · have hbn : off / BSIZE < MAXFILE := by
        simp only [BSIZE, MAXFILE, NDIRECT, NINDIRECT] at *
        omega
      obtain ⟨n₁, hn₁⟩ : ∃ n₁, n₁ = min n ((off / BSIZE + 1) * BSIZE - off) := ⟨_, rfl⟩
      have hle : n₁ ≤ n ∧ 0 < n₁ ∧ n₁ ≤ BSIZE - off % BSIZE := by
        simp only [BSIZE] at *
        omega
      have hblocks : place (off / BSIZE) + 1 = fileBlocks (off + n₁) := by
        simp only [place, fileBlocks, BSIZE, NDIRECT] at *
        split_ifs <;> omega
      have hmono : fileBlocks (off + n₁) ≤ fileBlocks (off + n) := by
        simp only [fileBlocks, BSIZE, NDIRECT] at *
        split_ifs <;> omega
      have hoff : off - off / BSIZE * BSIZE = off % BSIZE := by
        simp only [BSIZE]
        omega
      simp only [if_neg h0, wp_bind, wp_assert (decide_eq_true hbn), hoff, ← hn₁]
      refine wp_mono (appendBlock_spec h hex hbn (by omega)) ?_
      rintro ⟨x, d₁⟩ s₁ ⟨hx, hf⟩
      simp only at hx hf
      simp only [wp_rsect, wp_wsect]
      have hne : addrOf s₁.img d₁ (off / BSIZE) ≠ 0 := (hf.exact _).mpr (Nat.lt_succ_self _)
      subst hx
      obtain ⟨hext, hptr, hview⟩ := appending_put hf.ext.active rfl hne
        ((s₁.img (addrOf s₁.img d₁ (off / BSIZE))).write (off % BSIZE) p n₁) rfl
      have hex₂ := hf.exact
      rw [hblocks] at hex₂
      have hcount := hf.counter
      refine wp_mono (ih hext.active (fun k => by rw [hptr k]; exact hex₂ k) (by omega)
        (by rw [show off + n₁ + (n - n₁) = off + n by omega]; simp only; omega) (by omega)) ?_
      intro d₃ s₃ ha
      have hcount' := ha.counter
      simp only [show off + n₁ + (n - n₁) = off + n by omega] at hcount'
      refine ⟨(hf.ext.trans hext).trans ha.ext, ?_, ?_, by omega⟩
      · have hbytes : byteAt s₁.img d₁ = (viewOf s i d i).bytes := by
          rw [← hf.view, hf.ext.active.viewOf_self]
        rw [ha.view, hview, update_self, update_idem,
          patch_block _ _ _ hle.2.2 hne, hbytes, hf.view, ← File.patch_patch _ p hle.1]
        rfl
      · have hend := ha.exact
        rwa [show off + n₁ + (n - n₁) = off + n by omega] at hend

end Xv6.Mkfs
