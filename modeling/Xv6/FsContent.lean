import Mathlib.Data.Finset.Union
import Xv6.FsBmap

/-!
# File contents

The loops of `readi` and `writei` go through the blocks of a range of bytes. Reading bytes below
the size of an inode whose blocks are all there returns the contents and changes nothing. Writing
fills the places on the way to the blocks of the range, and patches the contents of this file
only.
-/

namespace Xv6.Fs

open Function

open Prog

variable {s s' s'' : FsState} {ip b off n m : Nat}

/-- Every block below the size has an address. -/
def Covered (disk : Nat → Block) (d : Dinode) : Prop :=
  ∀ bn, bn * BSIZE < d.size → addrOf disk d bn ≠ 0

/-! ### Reading -/

theorem div_add {i : Nat} (h : i < BSIZE - off % BSIZE) : (off + i) / BSIZE = off / BSIZE := by
  simp only [BSIZE] at *
  omega

theorem mod_add {i : Nat} (h : i < BSIZE - off % BSIZE) : (off + i) % BSIZE = off % BSIZE + i := by
  simp only [BSIZE] at *
  omega

theorem readiLoop_spec {fuel : Nat} {E : Fault → Prop}
    (hc : ∀ bn, bn * BSIZE < off + n → addrOf s.disk (s.icache ip).din bn ≠ 0) (hfuel : n ≤ fuel) :
    wp (readiLoop ip fuel off n) s
      (fun data s' => data = (List.range n).map
        (fun i => byteAt s.disk (s.icache ip).din (off + i)) ∧ s' = s) E := by
  induction fuel generalizing off n with
  | zero =>
    have h0 : n = 0 := by omega
    subst h0
    exact ⟨rfl, rfl⟩
  | succ fuel ih =>
    simp only [readiLoop]
    by_cases h0 : n = 0
    · subst h0
      exact ⟨rfl, rfl⟩
    · have haddr : addrOf s.disk (s.icache ip).din (off / BSIZE) ≠ 0 := by
        apply hc
        simp only [BSIZE]
        omega
      rw [if_neg h0]
      refine wp_seq (bmap_of_ne haddr) ?_
      rintro b s₁ ⟨hb, hs₁⟩
      subst hb hs₁
      simp only [wp_bind, wp_bread]
      have hm : min n (BSIZE - off % BSIZE) ≤ n := Nat.min_le_left _ _
      have hm0 : 0 < min n (BSIZE - off % BSIZE) := by
        simp only [BSIZE]
        omega
      refine wp_mono (ih (fun bn hbn => hc bn (by omega)) (by omega)) ?_
      rintro rest s₂ ⟨hrest, hs₂⟩
      refine ⟨?_, hs₂⟩
      rw [hrest]
      have hsplit : n = min n (BSIZE - off % BSIZE) + (n - min n (BSIZE - off % BSIZE)) := by
        omega
      conv_rhs => rw [hsplit, List.range_add, List.map_append]
      congr 1
      · apply List.map_congr_left
        intro i hi
        have hi' : i < BSIZE - off % BSIZE := by
          have := List.mem_range.mp hi
          omega
        rw [byteAt_of_ne (by rwa [div_add hi']), div_add hi', mod_add hi']
      · rw [List.map_map]
        apply List.map_congr_left
        intro i _
        simp only [Function.comp_apply, Nat.add_assoc]

theorem readi_spec {E : Fault → Prop}
    (hc : ∀ bn, bn * BSIZE < min (off + n) (s.icache ip).din.size → addrOf s.disk (s.icache ip).din
      bn ≠ 0) (hdev : (s.icache ip).din.type ≠ T_DEV) :
    wp (readi ip off n) s
      (fun r s' => s' = s ∧ r = if off > (s.icache ip).din.size ∨ (off + n) % 2 ^ 32 < off then none
        else some ((List.range (min n ((s.icache ip).din.size - off))).map
          (fun i => byteAt s.disk (s.icache ip).din (off + i)))) E := by
  simp only [readi, wp_bind, wp_getInode, wp_get, if_neg hdev]
  by_cases hbad : off > (s.icache ip).din.size ∨ (off + n) % 2 ^ 32 < off
  · rw [if_pos hbad]
    exact ⟨rfl, (if_pos hbad).symm⟩
  · have hmin : (if off + n > (s.icache ip).din.size then (s.icache ip).din.size - off else n) =
        min n ((s.icache ip).din.size - off) := by
      split_ifs <;> omega
    rw [if_neg hbad, hmin]
    refine wp_seq (readiLoop_spec (fun bn hbn => hc bn (by omega)) le_rfl) ?_
    rintro data s₁ ⟨rfl, rfl⟩
    exact ⟨rfl, (if_neg hbad).symm⟩

/-! ### Writing -/

/-- The bytes `f` with `src` in place of those at `off .. off + n - 1`. -/
def patch (f : Nat → UInt8) (off n : Nat) (src : Nat → UInt8) (x : Nat) : UInt8 :=
  if off ≤ x ∧ x < off + n then src (x - off) else f x

theorem patch_patch (f src : Nat → UInt8) (h : m ≤ n) :
    patch (patch f off m src) (off + m) (n - m) (fun i => src (i + m)) = patch f off n src := by
  funext x
  simp only [patch]
  by_cases h₁ : off + m ≤ x ∧ x < off + m + (n - m)
  · rw [if_pos h₁, if_pos (by omega)]
    congr 1
    omega
  · rw [if_neg h₁]
    by_cases h₂ : off ≤ x ∧ x < off + m
    · rw [if_pos h₂, if_pos (by omega)]
    · rw [if_neg h₂, if_neg (by omega)]

/-- The places of the blocks of a range of bytes. -/
def span (off n : Nat) : Finset Nat :=
  (Finset.range n).biUnion (fun i => path ((off + i) / BSIZE))

theorem span_eq (h0 : 0 < m) (hm : m ≤ n) (hb : m ≤ BSIZE - off % BSIZE) :
    span off n = path (off / BSIZE) ∪ span (off + m) (n - m) := by
  ext k
  simp only [span, Finset.mem_biUnion, Finset.mem_range, Finset.mem_union]
  constructor
  · rintro ⟨i, hi, hk⟩
    by_cases him : i < m
    · rw [div_add (by omega)] at hk
      exact Or.inl hk
    · refine Or.inr ⟨i - m, by omega, ?_⟩
      rwa [show off + m + (i - m) = off + i by omega]
  · rintro (hk | ⟨i, hi, hk⟩)
    · exact ⟨0, by omega, by simpa using hk⟩
    · exact ⟨m + i, by omega, by rwa [← Nat.add_assoc]⟩

theorem Active.view_self (h : Active s ip) : view s.disk (tblOf s ip) (s.icache ip).inum =
    ⟨(s.icache ip).din.type, (s.icache ip).din.major, (s.icache ip).din.minor,
      (s.icache ip).din.nlink, (s.icache ip).din.size, byteAt s.disk (s.icache ip).din⟩ := by
  rw [view, Active.tbl_self, fileOf_live h.live]

/-- Reading within a block that need not be there: a missing one is allocated and reads as
zeros. -/
theorem readiLoop_block {fuel : Nat} (h : Active s ip) (hbn : off / BSIZE < MAXFILE) (h0 : 0 < n)
    (hn : n ≤ BSIZE - off % BSIZE) :
    wp (readiLoop ip (fuel + 1) off n) s
      (fun data s' => data = (List.range n).map
          (fun i => byteAt s.disk (s.icache ip).din (off + i)) ∧
        Mapped s s' ip (path (off / BSIZE)) ∧
        view s'.disk (tblOf s' ip) = view s.disk (tblOf s ip))
      (fun e => e = outOfBlocks ∧ freeBlocks s < (missing s ip (path (off / BSIZE))).card) := by
  rw [readiLoop, if_neg (by omega)]
  refine wp_seq (bmap_spec h hbn) ?_
  rintro b s₁ ⟨rfl, hm, hv⟩
  have hne : addrOf s₁.disk (s₁.icache ip).din (off / BSIZE) ≠ 0 := by
    apply hm.filled
    simp only [place, path]
    split_ifs <;> simp
  have hbytes : byteAt s₁.disk (s₁.icache ip).din = byteAt s.disk (s.icache ip).din := by
    have hi := congrArg File.bytes (congrFun hv (s.icache ip).inum)
    rwa [← hm.grown.inum, hm.grown.active.view_self, hm.grown.inum, h.view_self] at hi
  have hend : ∀ fuel off, readiLoop ip fuel off 0 = pure [] := by
    intro fuel off
    cases fuel <;> rfl
  simp only [Nat.min_eq_left hn, Nat.sub_self, hend, wp_bind, wp_bread, wp_pure, List.append_nil]
  refine ⟨?_, hm, hv⟩
  apply List.map_congr_left
  intro i hi
  have hi' : i < BSIZE - off % BSIZE := by
    have := List.mem_range.mp hi
    omega
  rw [← hbytes, byteAt_of_ne (by rwa [div_add hi']), div_add hi', mod_add hi']

theorem mapped_put {bn : Nat} (h : Active s ip) (hb : addrOf s.disk (s.icache ip).din bn = b)
    (hb0 : b ≠ 0) (data : Block) :
    Mapped s (s.put b data) ip ∅ ∧ view (s.put b data).disk (tblOf (s.put b data) ip) =
      update (view s.disk (tblOf s ip)) (s.icache ip).inum
        { view s.disk (tblOf s ip) (s.icache ip).inum with
          bytes := fun x => if x / BSIZE = bn then data.get (x % BSIZE)
            else byteAt s.disk (s.icache ip).din x } := by
  have hi : (tblOf s ip (s.icache ip).inum).type ≠ 0 := by
    rw [Active.tbl_self]
    exact h.live
  have hb' : addrOf s.disk (tblOf s ip (s.icache ip).inum) bn = b := by rw [Active.tbl_self, hb]
  have hlo : dataStart s.sb ≤ b := by
    rw [← hb', addrOf, ← held_live hi]
    refine (h.vol.owns.bounds ?_).1
    rwa [held_live hi, ← addrOf, hb']
  have hmap := h.vol.layout.bmapstart_lt
  have htable : dinodes s.sb (update s.disk b data) = dinodes s.sb s.disk :=
    dinodes_update h.vol.layout (by omega)
  have htbl : tblOf (s.put b data) ip = tblOf s ip := by
    simp only [tblOf, put_sb, put_disk, put_icache, htable]
  have hbits : ∀ c < s.sb.size,
      bitUsed s.sb (update s.disk b data) c = bitUsed s.sb s.disk c := by
    intro c hc
    have := h.vol.layout.BBLOCK_lt hc
    exact bitUsed_update_of_ne (by omega)
  have hvol := h.vol.write hi hb' hb0 data
  have hactive : Active (s.put b data) ip := by
    refine ⟨?_, h.wf, h.live, h.range⟩
    rw [htbl]
    exact ⟨hvol.layout, hvol.super, hvol.owns.congr hbits⟩
  have hptr : ∀ k, ptr (s.put b data).disk ((s.put b data).icache ip).din k =
      ptr s.disk (s.icache ip).din k := by
    intro k
    rw [← hactive.held_eq, ← h.held_eq, htbl, put_disk, h.vol.held_write hi hb' hb0 data,
      put_icache]
  refine ⟨⟨⟨⟨hactive, rfl, htable, fun _ _ => rfl, rfl, ?_⟩, rfl, rfl, rfl, rfl, rfl⟩, ?_, ?_, ?_⟩,
    ?_⟩
  · intro j l _
    rw [htbl, put_disk, h.vol.held_write hi hb' hb0 data]
  · intro k hk
    cases Finset.notMem_empty k hk
  · exact fun k _ => hptr k
  · rw [freeBlocks, put_sb, put_disk, freeCount_congr hbits]
    rfl
  · rw [htbl, put_disk, h.vol.view_write hi hb' hb0 data, Active.tbl_self]

theorem patch_block (disk : Nat → Block) (d : Dinode) (src : Nat → UInt8)
    (hn : n ≤ BSIZE - off % BSIZE) (hne : addrOf disk d (off / BSIZE) ≠ 0) :
    (fun x => if x / BSIZE = off / BSIZE then
        ((disk (addrOf disk d (off / BSIZE))).write (off % BSIZE) src n).get (x % BSIZE)
      else byteAt disk d x) = patch (byteAt disk d) off n src := by
  funext x
  by_cases hx : x / BSIZE = off / BSIZE
  · have hlt : x % BSIZE < BSIZE := Nat.mod_lt _ (by decide)
    rw [if_pos hx, patch]
    by_cases hin : off ≤ x ∧ x < off + n
    · rw [if_pos hin, Bytes.get_write_in _ _ (by simp only [BSIZE] at *; omega)
        (by simp only [BSIZE] at *; omega) hlt]
      congr 1
      simp only [BSIZE] at *
      omega
    · rw [if_neg hin, Bytes.get_write_out _ _ (by simp only [BSIZE] at *; omega),
        byteAt_of_ne (by rwa [hx]), hx]
  · rw [if_neg hx, patch, if_neg]
    simp only [BSIZE] at *
    omega

def File.patch (f : File) (off n : Nat) (src : Nat → UInt8) : File :=
  { f with bytes := Fs.patch f.bytes off n src }

theorem File.patch_zero (f : File) (src : Nat → UInt8) : f.patch off 0 src = f := by
  have hp : Fs.patch f.bytes off 0 src = f.bytes := by
    funext x
    rw [Fs.patch, if_neg (by omega)]
  rw [File.patch, hp]

theorem File.patch_patch (f : File) (src : Nat → UInt8) (h : m ≤ n) :
    (f.patch off m src).patch (off + m) (n - m) (fun i => src (i + m)) = f.patch off n src := by
  rw [File.patch, File.patch, Fs.patch_patch _ _ h]
  rfl

theorem writeiLoop_spec {fuel : Nat} {src : Nat → UInt8} (h : Active s ip)
    (hmax : off + n ≤ MAXFILE * BSIZE) (hfuel : n ≤ fuel) :
    wp (writeiLoop ip fuel src off n) s
      (fun _ s' => Mapped s s' ip (span off n) ∧ view s'.disk (tblOf s' ip) =
        update (view s.disk (tblOf s ip)) (s.icache ip).inum
          ((view s.disk (tblOf s ip) (s.icache ip).inum).patch off n src))
      (fun e => e = outOfBlocks ∧ freeBlocks s < (missing s ip (span off n)).card) := by
  induction fuel generalizing s src off n with
  | zero =>
    have h0 : n = 0 := by omega
    subst h0
    refine ⟨mapped_of_filled h (fun k hk => by simp [span] at hk), ?_⟩
    rw [File.patch_zero, update_eq_self]
  | succ fuel ih =>
    simp only [writeiLoop]
    by_cases h0 : n = 0
    · subst h0
      rw [if_pos rfl]
      refine ⟨mapped_of_filled h (fun k hk => by simp [span] at hk), ?_⟩
      rw [File.patch_zero, update_eq_self]
    · have hbn : off / BSIZE < MAXFILE := by
        simp only [BSIZE, MAXFILE, NDIRECT, NINDIRECT] at *
        omega
      have hm : min n (BSIZE - off % BSIZE) ≤ n := Nat.min_le_left _ _
      have hmb : min n (BSIZE - off % BSIZE) ≤ BSIZE - off % BSIZE := Nat.min_le_right _ _
      have hm0 : 0 < min n (BSIZE - off % BSIZE) := by
        simp only [BSIZE]
        omega
      have hspan := span_eq hm0 hm hmb
      rw [if_neg h0, wp_bind, hspan]
      refine wp_conseq (bmap_spec h hbn) ?_ ?_
      · rintro b s₁ ⟨hb, hm₁, hv₁⟩
        have hb0 : addrOf s₁.disk (s₁.icache ip).din (off / BSIZE) ≠ 0 := by
          apply hm₁.filled
          simp only [place, path]
          split_ifs <;> simp
        subst hb
        simp only [wp_bind, wp_bread, wp_logWrite]
        obtain ⟨hm₂, hv₂⟩ := mapped_put hm₁.grown.active rfl hb0
          ((s₁.disk (addrOf s₁.disk (s₁.icache ip).din (off / BSIZE))).write (off % BSIZE) src
            (min n (BSIZE - off % BSIZE)))
        have hm₁₂ := hm₁.trans hm₂
        rw [Finset.union_empty] at hm₁₂
        refine wp_conseq (ih hm₂.grown.active (by omega) (by omega)) ?_ ?_
        · rintro _ s₃ ⟨hm₃, hv₃⟩
          refine ⟨hm₁₂.trans hm₃, ?_⟩
          have hbytes : byteAt s₁.disk (s₁.icache ip).din =
              (view s.disk (tblOf s ip) (s.icache ip).inum).bytes := by
            rw [← hm₁.grown.inum, ← hv₁, hm₁.grown.active.view_self]
          rw [hv₃, hv₂, hm₂.grown.inum, update_self, update_idem,
            patch_block _ _ _ hmb hb0, ← File.patch_patch _ src hm, hbytes, hv₁, hm₁.grown.inum]
          rfl
        · rintro e ⟨he, hlt⟩
          refine ⟨he, ?_⟩
          have hfree := hm₁₂.free
          rw [hm₁₂.missing_union]
          omega
      · rintro e ⟨he, hlt⟩
        refine ⟨he, lt_of_lt_of_le hlt (Finset.card_le_card ?_)⟩
        exact Finset.filter_subset_filter _ Finset.subset_union_left

end Xv6.Fs
