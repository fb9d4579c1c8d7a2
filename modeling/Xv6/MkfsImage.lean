import Xv6.FsGood
import Xv6.MkfsAppend

/-!
# Images

Between two steps of `mkfs` every file of the image has exactly the blocks of its size and the
used blocks are those below the counter. `ialloc` adds an empty file, `iappend` makes one file
longer. What `main` puts on the disk is a root directory with an entry for each input file.
-/

namespace Xv6.Mkfs

open Function

open Prog Fs

structure Image (s : MkState) : Prop where
  vol : Volume (fun b => decide (b < s.freeblock)) sb s.img (dinodes sb s.img)
  fresh : ∀ b, s.freeblock ≤ b → s.img b = Bytes.zero
  exact : ∀ i, (dinodes sb s.img i).type ≠ 0 →
    Exact s.img (dinodes sb s.img i) (fileBlocks (dinodes sb s.img i).size)

/-- The files of an image. -/
def imgFiles (s : MkState) : Nat → File := view s.img (dinodes sb s.img)

variable {s s' s₀ : MkState} {i n off : Nat} {d : Dinode} {p : Nat → UInt8} {E : Fault → Prop}

/-! ### Storing an inode -/

/-- `s'` arises from `s` by storing `d` as inode `i`. -/
structure Stored (s s' : MkState) (i : Nat) (d : Dinode) : Prop where
  freeblock : s'.freeblock = s.freeblock
  freeinode : s'.freeinode = s.freeinode
  table : dinodes sb s'.img = update (dinodes sb s.img) i d
  vol : Volume (fun b => decide (b < s'.freeblock)) sb s'.img (dinodes sb s'.img)
  held : held s'.img (dinodes sb s'.img) = held s.img (update (dinodes sb s.img) i d)
  view : imgFiles s' = viewOf s i d
  fresh : ∀ b, s'.freeblock ≤ b → s'.img b = Bytes.zero

theorem winode_spec
    (hvol : Volume (fun b => decide (b < s.freeblock)) sb s.img (update (dinodes sb s.img) i d))
    (hwf : d.Wf) (hr : 0 < i ∧ i < NINODES) (hfresh : ∀ b, s.freeblock ≤ b → s.img b = Bytes.zero) :
    wp (winode i d) s (fun _ s' => Stored s s' i d) E := by
  have hmap : sb.bmapstart < nmeta := layout_sb.bmapstart_lt
  have hib : IBLOCK i sb < sb.bmapstart := layout_sb.IBLOCK_lt hr.2
  have hle := nmeta_le hvol
  have hlow : IBLOCK i sb < dataStart sb := hib.trans hmap
  have htable : dinodes sb (update s.img (IBLOCK i sb)
      (writeDinode (s.img (IBLOCK i sb)) (i % IPB) d)) = update (dinodes sb s.img) i d :=
    dinodes_writeDinode hwf hr
  rw [winode, wp_bind, wp_rsect, wp_wsect]
  refine ⟨rfl, rfl, htable, ⟨hvol.layout, ?_, ?_⟩, ?_, ?_, ?_⟩
  · simp only [update_of_ne (Ne.symm layout_sb.IBLOCK_ne_one), hvol.super]
  · rw [htable, hvol.held_update_low _ hlow]
    exact hvol.owns
  · rw [htable, hvol.held_update_low _ hlow]
  · rw [imgFiles, htable, hvol.view_update_low _ hlow, viewOf]
  · intro b hb
    have hb' : s.freeblock ≤ b := hb
    have hne : b ≠ IBLOCK i sb := by omega
    simpa only [update_of_ne hne] using hfresh b hb'

theorem Image.store (h : Image s₀) (htable : dinodes sb s.img = dinodes sb s₀.img)
    (hapart : ∀ j l, j ≠ i → held s.img (update (dinodes sb s.img) i d) (j, l) = held s₀.img
      (dinodes sb s₀.img) (j, l)) (hd : d.type ≠ 0) (hex : Exact s.img d (fileBlocks d.size))
    (hst : Stored s s' i d) : Image s' := by
  refine ⟨hst.vol, hst.fresh, fun j hj k => ?_⟩
  rw [← held_live hj, hst.held]
  by_cases hji : j = i
  · subst hji
    rw [held_live (by rw [update_self]; exact hd), hst.table, update_self]
    exact hex k
  · have hsame : dinodes sb s'.img j = dinodes sb s₀.img j := by
      rw [hst.table, update_of_ne hji, htable]
    rw [hsame] at hj
    rw [hapart j k hji, held_live hj, hsame]
    exact h.exact j hj k

/-! ### The two steps -/

theorem ptr_setSize (img : Nat → Block) (d : Dinode) (m k : Nat) :
    ptr img (d.setSize m) k = ptr img d k := ptr_congr rfl (fun _ => rfl)

theorem held_setSize (img : Nat → Block) (tbl : Nat → Dinode) (d : Dinode) (i m : Nat) :
    held img (update tbl i (d.setSize m)) = held img (update tbl i d) := by
  funext ⟨j, l⟩
  by_cases hj : j = i
  · subst hj
    simp only [held, update_self, ptr_setSize]
    rfl
  · exact held_congr (by rw [update_of_ne hj, update_of_ne hj]) (fun _ => rfl)

theorem view_setSize (img : Nat → Block) (tbl : Nat → Dinode) {d : Dinode} (i m : Nat)
    (hd : d.type ≠ 0) : view img (update tbl i (d.setSize m)) =
      update (view img (update tbl i d)) i { fileOf img d with size := m } := by
  funext j
  by_cases hj : j = i
  · subst hj
    rw [update_self, view, update_self, fileOf_live hd,
      fileOf_live (by exact hd)]
    congr 1
  · rw [update_of_ne hj, view, update_of_ne hj, view, update_of_ne hj]

def File.append (f : File) (n : Nat) (p : Nat → UInt8) : File :=
  { f with size := f.size + n, bytes := Fs.patch f.bytes f.size n p }

/-- `s'` is the image `s` with `f` as file `i`. -/
structure Wrote (s s' : MkState) (i : Nat) (f : File) : Prop where
  image : Image s'
  files : imgFiles s' = update (imgFiles s) i f

theorem rinode_spec (hr : 0 < i ∧ i < NINODES) {Q : Dinode → MkState → Prop}
    (hQ : Q (dinodes sb s.img i) s) : wp (rinode i) s Q E := by
  have hd : dinodes sb s.img i = readDinode (s.img (IBLOCK i sb)) (i % IPB) := if_pos hr
  rw [hd] at hQ
  exact hQ

theorem Image.live (hi : (imgFiles s i).type ≠ 0) : (dinodes sb s.img i).type ≠ 0 := by
  rwa [imgFiles, view, fileOf_type] at hi

theorem Image.size_eq (hi : (imgFiles s i).type ≠ 0) :
    (dinodes sb s.img i).size = (imgFiles s i).size := by
  rw [imgFiles, view, fileOf_live (Image.live hi)]

theorem iappend_spec (h : Image s) (hi : (imgFiles s i).type ≠ 0)
    (hsize : (imgFiles s i).size = off) (hmax : off + n ≤ MAXFILE * BSIZE)
    (hroom : s.freeblock + fileBlocks (off + n) ≤ FSSIZE + fileBlocks off) :
    wp (iappend i p n) s (fun _ s' => Wrote s s' i (File.append (imgFiles s i) n p) ∧
      s'.freeinode = s.freeinode ∧
      s'.freeblock + fileBlocks off = s.freeblock + fileBlocks (off + n)) E := by
  have hlive := Image.live hi
  have hr : 0 < i ∧ i < NINODES := dinodes_range hlive
  have hoff : (dinodes sb s.img i).size = off := by rw [Image.size_eq hi, hsize]
  have hself : update (dinodes sb s.img) i (dinodes sb s.img i) = dinodes sb s.img :=
    update_eq_self _ _
  have happ : Appending s i (dinodes sb s.img i) :=
    ⟨by rw [hself]; exact h.vol, dinodes_wf _ _ _, hlive, hr, h.fresh⟩
  have hex := h.exact i hlive
  rw [hoff] at hex
  rw [iappend, wp_bind]
  apply rinode_spec hr
  rw [hoff]
  refine wp_seq (iappendLoop_spec happ hex hmax hroom le_rfl) ?_
  intro d₁ s₁ ha
  have hm := ha.ext.sameMeta
  have hact := ha.ext.active
  have hbound : off + n < 2 ^ 32 := by
    simp only [MAXFILE, NDIRECT, NINDIRECT, BSIZE] at hmax
    omega
  have hlive₁ : (d₁.setSize (off + n)).type ≠ 0 := hact.live
  have hvol : Volume (fun b => decide (b < s₁.freeblock)) sb s₁.img
      (update (dinodes sb s₁.img) i (d₁.setSize (off + n))) := by
    refine ⟨hact.vol.layout, hact.vol.super, ?_⟩
    rw [held_setSize]
    exact hact.vol.owns
  have hwf : (d₁.setSize (off + n)).Wf := { hact.wf with size := hbound }
  refine wp_mono (winode_spec hvol hwf hr hact.fresh) ?_
  intro _ s₂ hst
  refine ⟨⟨h.store ha.ext.table ?_ hlive₁ ?_ hst, ?_⟩, by rw [hst.freeinode, ha.ext.freeinode],
    by rw [hst.freeblock, ha.counter]⟩
  · intro j l hj
    rw [held_setSize, ha.ext.apart j l hj, hself]
  · intro k
    rw [ptr_setSize]
    exact ha.exact k
  · have hsame : viewOf s i (dinodes sb s.img i) = imgFiles s := by rw [viewOf, hself, imgFiles]
    have hv := ha.view
    rw [hsame] at hv
    have hfile : fileOf s₁.img d₁ = (imgFiles s i).patch off n p := by
      have hi' := congrFun hv i
      rwa [update_self, viewOf, view, update_self] at hi'
    rw [viewOf] at hv
    rw [hst.view, viewOf, view_setSize _ _ _ _ hact.live, hv, update_idem, hfile,
      File.append, hsize]
    rfl

theorem ialloc_spec {type : Nat} (h : Image s) (hi : (imgFiles s s.freeinode).type = 0)
    (hr : 0 < s.freeinode ∧ s.freeinode < NINODES) (ht : type ≠ 0) (ht' : type < 2 ^ 16) :
    wp (ialloc type) s (fun i s' => i = s.freeinode ∧ s'.freeinode = s.freeinode + 1 ∧
      s'.freeblock = s.freeblock ∧
      Wrote s s' s.freeinode ⟨type, 0, 0, 1, 0, fun _ => 0⟩) E := by
  obtain ⟨d, hd⟩ : ∃ d : Dinode, d = { Dinode.zero with type := type, nlink := 1, size := 0 } :=
    ⟨_, rfl⟩
  have hlive : d.type ≠ 0 := by rwa [hd]
  have hfree : (dinodes sb s.img s.freeinode).type = 0 := by rwa [imgFiles, view, fileOf_type] at hi
  have hptr : ∀ k, ptr s.img d k = 0 := by
    intro k
    simp [ptr, hd, Dinode.zero]
  have hheld : held s.img (update (dinodes sb s.img) s.freeinode d) =
      held s.img (dinodes sb s.img) := by
    funext x
    obtain ⟨j, l⟩ := x
    by_cases hj : j = s.freeinode
    · subst hj
      rw [held_free hfree, held_live (by rw [update_self]; exact hlive),
        update_self, hptr]
    · exact held_congr (update_of_ne hj _ _) (fun _ => rfl)
  have hvol : Volume (fun b => decide (b < s.freeblock)) sb s.img
      (update (dinodes sb s.img) s.freeinode d) := by
    refine ⟨h.vol.layout, h.vol.super, ?_⟩
    rw [hheld]
    exact h.vol.owns
  have hwf : d.Wf := by
    rw [hd]
    exact ⟨ht', Nat.two_pow_pos 16, Nat.two_pow_pos 16, Nat.one_lt_two_pow (by decide),
      Nat.two_pow_pos 32, fun _ => Nat.two_pow_pos 32, fun _ _ => rfl⟩
  have hex : Exact s.img d (fileBlocks d.size) := by
    intro k
    rw [hptr, hd]
    simp [fileBlocks, BSIZE]
  rw [ialloc, wp_bind, wp_get, wp_bind, wp_modify, wp_bind, ← hd]
  refine wp_mono (winode_spec (s := { s with freeinode := s.freeinode + 1 }) hvol hwf hr h.fresh)
    ?_
  intro _ s₁ hst
  refine ⟨rfl, hst.freeinode, hst.freeblock,
    h.store (s := { s with freeinode := s.freeinode + 1 }) rfl ?_ hlive hex hst, ?_⟩
  · intro j l _
    simp only [hheld]
  · rw [hst.view]
    funext j
    by_cases hj : j = s.freeinode
    · subst hj
      rw [update_self, viewOf, view, update_self, fileOf_live hlive]
      simp only [File.mk.injEq]
      subst hd
      refine ⟨rfl, rfl, rfl, rfl, rfl, ?_⟩
      funext x
      exact byteAt_of_eq (hptr _)
    · rw [update_of_ne hj, viewOf, view, update_of_ne hj, imgFiles, view]

end Xv6.Mkfs
