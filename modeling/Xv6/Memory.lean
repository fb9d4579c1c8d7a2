import Xv6.Bytes
import Xv6.PageSpecs
import Xv6.Prog

/-!
# Physical memory

The pages with their contents and the free list of `kalloc.c`. `serve` runs the routines of
`PageTable` on it. A routine that works on a directory takes the pages it needs from the free list
(`Grow`) or gives pages back to it (`Shrink`); the pages that are free neither before nor after keep
their contents (`Kept`).
-/

namespace Xv6.Vm

open Function
open Alloc

structure Mem where
  /-- The first page after the kernel. -/
  kend : Page
  kernel : 0 < kend
  free : List Page
  data : Page → Bytes PGSIZE
  /-- Which of the next calls of `kalloc` find the list empty because others hold its pages. -/
  deny : Nat → Bool

namespace Mem

variable (s : Mem)

def setFree (fl : List Page) : Mem := { s with free := fl }

def setData (p : Page) (b : Bytes PGSIZE) : Mem := { s with data := update s.data p b }

/-- One call of `kalloc` later. -/
def later : Mem := { s with deny := fun n => s.deny (n + 1) }

@[simp] theorem setFree_free (fl : List Page) : (s.setFree fl).free = fl := rfl

@[simp] theorem setData_self (p : Page) (b : Bytes PGSIZE) : (s.setData p b).data p = b :=
  update_self _ _ _

theorem setData_of_ne {p q : Page} (h : q ≠ p) (b : Bytes PGSIZE) :
    (s.setData p b).data q = s.data q :=
  update_of_ne h _ _

@[simp] theorem setData_setData (p : Page) (b b' : Bytes PGSIZE) :
    (s.setData p b).setData p b' = s.setData p b' := by
  simp only [setData, update_idem]

@[simp] theorem setData_eq_self (p : Page) : s.setData p (s.data p) = s := by
  simp only [setData, update_eq_self]

/-- The pages that `kfree` accepts. -/
def Valid (p : Page) : Prop := s.kend ≤ p ∧ p < PHYSTOP / PGSIZE

instance (p : Page) : Decidable (s.Valid p) := inferInstanceAs (Decidable (_ ∧ _))

def kalloc : Prog Mem (Option Page) := fun s =>
  match s.free with
  | [] => .ok (none, s.later)
  | p :: rest => if s.deny 0 then .ok (none, s.later) else .ok (some p, s.later.setFree rest)

/-- What `kfree` fills a page with. -/
def junk : Bytes PGSIZE := Bytes.ofFn (fun _ => 1)

/-- `memset` or `memmove` of a whole page. -/
def fill (p : Page) (src : Option Page) : Prog Mem Unit :=
  Prog.modify (fun s => s.setData p (src.elim Bytes.zero s.data))

def kfree (p : Page) : Prog Mem Unit := fun s =>
  if s.Valid p then .ok ((), (s.setData p junk).setFree (p :: s.free)) else .error (.panic "kfree")

end Mem

/-- A routine on the pages of the memory. -/
def serve {α : Type} : Routine Page α → Prog Mem α
  | .ret a => pure a
  | .alloc k => Mem.kalloc >>= fun r => serve (k r)
  | .fill p src k => Mem.fill p src >>= fun _ => serve k
  | .free p k => Mem.kfree p >>= fun _ => serve k
  | .panic msg => Prog.panicWith msg

variable {α β : Type} {s s' s₁ : Mem} {own own' own₁ rest : Multiset Page}
  {E : Fault → Prop} {p : Page}

theorem wp_serve_bind (c : Routine Page α) (f : α → Routine Page β) {Q : β → Mem → Prop} :
    wp (serve (c.bind f)) s Q E ↔ wp (serve c) s (fun a s' => wp (serve (f a)) s' Q E) E := by
  induction c generalizing s with
  | ret a => exact Iff.rfl
  | alloc k ih =>
    have hk : ∀ r s', wp (serve ((k r).bind f)) s' Q E ↔
        wp (serve (k r)) s' (fun a s' => wp (serve (f a)) s' Q E) E := fun r s' => ih r
    simp only [Routine.bind, serve, wp_bind, hk]
  | fill p src k ih => exact ih
  | free p k ih =>
    have hk : ∀ s', wp (serve (k.bind f)) s' Q E ↔
        wp (serve k) s' (fun a s' => wp (serve (f a)) s' Q E) E := fun s' => ih
    simp only [Routine.bind, serve, wp_bind, hk]
  | panic msg => exact Iff.rfl

/-! ### Who has which page -/

/-- The pages `own` and those of the free list are distinct pages of the allocator. -/
structure Fits (s : Mem) (own : Multiset Page) : Prop where
  nodup : ((s.free : Multiset Page) + own).Nodup
  valid : ∀ p ∈ (s.free : Multiset Page) + own, s.Valid p

/-- A routine took pages from the free list. -/
structure Grow (s : Mem) (own : Multiset Page) (s' : Mem) (own' : Multiset Page) : Prop where
  kend : s'.kend = s.kend
  pages : (s'.free : Multiset Page) + own' = s.free + own
  free : ∀ p ∈ s'.free, p ∈ s.free
  data : ∀ p ∉ s.free, s'.data p = s.data p

/-- A routine gave pages back. -/
structure Shrink (s : Mem) (own : Multiset Page) (s' : Mem) (own' : Multiset Page) : Prop where
  kend : s'.kend = s.kend
  pages : (s'.free : Multiset Page) + own' = s.free + own
  free : ∀ p ∈ s.free, p ∈ s'.free
  data : ∀ p ∉ s'.free, s'.data p = s.data p

/-- A routine took pages and then gave pages back. -/
structure Kept (s : Mem) (own : Multiset Page) (s' : Mem) (own' : Multiset Page) : Prop where
  kend : s'.kend = s.kend
  pages : (s'.free : Multiset Page) + own' = s.free + own
  data : ∀ p, p ∉ s.free → p ∉ s'.free → s'.data p = s.data p

namespace Fits

theorem of_pages (h : Fits s own) (hk : s'.kend = s.kend)
    (hp : (s'.free : Multiset Page) + own' = s.free + own) : Fits s' own' := by
  refine ⟨hp ▸ h.nodup, ?_⟩
  intro p hmem
  have hv := h.valid p (hp ▸ hmem)
  exact ⟨hk.symm ▸ hv.1, hv.2⟩

theorem mono (h : Fits s own) (hle : own' ≤ own) : Fits s own' := by
  have hadd : (s.free : Multiset Page) + own' ≤ s.free + own := Multiset.add_le_add_left hle
  exact ⟨Multiset.nodup_of_le hadd h.nodup, fun p hp => h.valid p (Multiset.mem_of_le hadd hp)⟩

theorem not_free (h : Fits s own) (hp : p ∈ own) : p ∉ s.free := by
  intro hf
  exact Multiset.disjoint_left.mp (Multiset.nodup_add.mp h.nodup).2.2 (Multiset.mem_coe.mpr hf) hp

theorem of_mem (h : Fits s own) (hp : p ∈ own) : s.Valid p :=
  h.valid p (Multiset.mem_add.mpr (Or.inr hp))

end Fits

namespace Grow

theorem refl (s : Mem) (own : Multiset Page) : Grow s own s own :=
  ⟨rfl, rfl, fun _ h => h, fun _ _ => rfl⟩

theorem trans (h : Grow s own s₁ own₁) (h' : Grow s₁ own₁ s' own') : Grow s own s' own' := by
  refine ⟨h'.kend.trans h.kend, h'.pages.trans h.pages, fun p hp => h.free p (h'.free p hp), ?_⟩
  intro p hp
  rw [h'.data p (fun hc => hp (h.free p hc)), h.data p hp]

section

variable (h : Grow s own s' own')
include h

theorem frame (rest : Multiset Page) :
    Grow s (own + rest) s' (own' + rest) :=
  ⟨h.kend, by rw [← add_assoc, h.pages, add_assoc], h.free, h.data⟩

theorem kept : Kept s own s' own' :=
  ⟨h.kend, h.pages, fun p hp _ => h.data p hp⟩

theorem fits (hf : Fits s own) : Fits s' own' := hf.of_pages h.kend h.pages

theorem cast {a b : Multiset Page} (ha : a = own) (hb : b = own') :
    Grow s a s' b := by
  rwa [ha, hb]

theorem write (hp : p ∈ s.free) (b : Bytes PGSIZE) :
    Grow s own (s'.setData p b) own' := by
  refine ⟨h.kend, h.pages, h.free, ?_⟩
  intro q hq
  have hne : q ≠ p := fun hc => hq (hc ▸ hp)
  rw [s'.setData_of_ne hne, h.data q hq]

end

end Grow

namespace Shrink

theorem refl (s : Mem) (own : Multiset Page) : Shrink s own s own :=
  ⟨rfl, rfl, fun _ h => h, fun _ _ => rfl⟩

theorem trans (h : Shrink s own s₁ own₁) (h' : Shrink s₁ own₁ s' own') : Shrink s own s' own' := by
  refine ⟨h'.kend.trans h.kend, h'.pages.trans h.pages, fun p hp => h'.free p (h.free p hp), ?_⟩
  intro p hp
  rw [h'.data p hp, h.data p (fun hc => hp (h'.free p hc))]

section

variable (h : Shrink s own s' own')
include h

theorem frame (rest : Multiset Page) :
    Shrink s (own + rest) s' (own' + rest) :=
  ⟨h.kend, by rw [← add_assoc, h.pages, add_assoc], h.free, h.data⟩

theorem kept : Kept s own s' own' :=
  ⟨h.kend, h.pages, fun p _ hp => h.data p hp⟩

theorem fits (hf : Fits s own) : Fits s' own' :=
  hf.of_pages h.kend h.pages

theorem cast {a b : Multiset Page} (ha : a = own) (hb : b = own') :
    Shrink s a s' b := by
  rwa [ha, hb]

end

end Shrink

namespace Kept

theorem grow_trans (h : Grow s own s₁ own₁) (h' : Kept s₁ own₁ s' own') : Kept s own s' own' := by
  refine ⟨h'.kend.trans h.kend, h'.pages.trans h.pages, ?_⟩
  intro p hp hp'
  rw [h'.data p (fun hc => hp (h.free p hc)) hp', h.data p hp]

theorem trans_shrink (h : Kept s own s₁ own₁) (h' : Shrink s₁ own₁ s' own') :
    Kept s own s' own' := by
  refine ⟨h'.kend.trans h.kend, h'.pages.trans h.pages, ?_⟩
  intro p hp hp'
  rw [h'.data p hp', h.data p hp (fun hc => hp' (h'.free p hc))]

section

variable (h : Kept s own s' own')
include h

theorem frame (rest : Multiset Page) :
    Kept s (own + rest) s' (own' + rest) :=
  ⟨h.kend, by rw [← add_assoc, h.pages, add_assoc], h.data⟩

theorem fits (hf : Fits s own) : Fits s' own' := hf.of_pages h.kend h.pages

theorem cast {a b : Multiset Page} (ha : a = own) (hb : b = own') :
    Kept s a s' b := by
  rwa [ha, hb]

/-- A page that is owned before and after keeps its contents. -/
theorem data_of_mem (hf : Fits s own) (hp : p ∈ own) (hp' : p ∈ own') :
    s'.data p = s.data p :=
  h.data p (hf.not_free hp) ((h.fits hf).not_free hp')

end

end Kept

/-! ### The allocator -/

theorem wp_kalloc (own : Multiset Page) {Q : Option Page → Mem → Prop}
    (hnone : ∀ s', Grow s own s' own → Q none s')
    (hsome : ∀ p s', p ∈ s.free → Grow s own s' (own + {p}) → Q (some p) s') :
    wp Mem.kalloc s Q E := by
  have hlater : Grow s own s.later own := ⟨rfl, rfl, fun _ h => h, fun _ _ => rfl⟩
  unfold wp Mem.kalloc
  cases hfree : s.free with
  | nil => exact hnone _ hlater
  | cons p rest =>
    dsimp only
    split_ifs with hdeny
    · exact hnone _ hlater
    · refine hsome p _ (hfree ▸ List.mem_cons_self) ⟨rfl, ?_, ?_, fun _ _ => rfl⟩
      · rw [hfree, Mem.setFree_free, ← Multiset.cons_coe, add_comm own, ← add_assoc,
          ← Multiset.singleton_add p]
        exact congrArg (· + own) (add_comm _ _)
      · intro q hq
        rw [hfree]
        exact List.mem_cons_of_mem p hq

theorem wp_kfree (own : Multiset Page) {Q : Unit → Mem → Prop} (hf : Fits s (own + {p}))
    (h : ∀ s', Shrink s (own + {p}) s' own → Q () s') : wp (Mem.kfree p) s Q E := by
  unfold wp Mem.kfree
  rw [if_pos (hf.of_mem (mem_add_singleton own p))]
  refine h _ ⟨rfl, ?_, fun q hq => List.mem_cons_of_mem p hq, ?_⟩
  · rw [Mem.setFree_free, ← Multiset.cons_coe, ← Multiset.singleton_add p, add_comm own,
      ← add_assoc]
    exact congrArg (· + own) (add_comm _ _)
  · intro q hq
    have hne : q ≠ p := fun hc => hq (hc ▸ List.mem_cons_self)
    exact s.setData_of_ne hne _

/-- The rule of sequencing, from a specification of the first routine. -/
theorem wp_serve_seq {c : Routine Page α} {f : α → Routine Page β} {Q : β → Mem → Prop}
    {Q' : α → Mem → Prop} (h : wp (serve c) s Q' E)
    (hQ : ∀ a s', Q' a s' → wp (serve (f a)) s' Q E) : wp (serve (c.bind f)) s Q E :=
  (wp_serve_bind c f).mpr (wp_mono h hQ)

theorem wp_serve_overwrite (src : Option Page) {f : Unit → Routine Page β} {Q : β → Mem → Prop}
    (h : wp (serve (f ())) (s.setData p (src.elim Bytes.zero s.data)) Q E) :
    wp (serve ((Routine.overwrite p src).bind f)) s Q E := h

theorem wp_serve_kalloc (own : Multiset Page) {f : Option Page → Routine Page β}
    {Q : β → Mem → Prop} (hnone : ∀ s', Grow s own s' own → wp (serve (f none)) s' Q E)
    (hsome : ∀ p s', p ∈ s.free → Grow s own s' (own + {p}) → wp (serve (f (some p))) s' Q E) :
    wp (serve (kalloc.bind f)) s Q E := by
  change wp (Mem.kalloc >>= fun r => serve (f r)) s Q E
  rw [wp_bind]
  exact wp_kalloc own hnone hsome

theorem wp_serve_kfree (own : Multiset Page) {f : Unit → Routine Page β} {Q : β → Mem → Prop}
    (hf : Fits s (own + {p})) (h : ∀ s', Shrink s (own + {p}) s' own → wp (serve (f ())) s' Q E) :
    wp (serve ((kfree p).bind f)) s Q E := by
  change wp (Mem.kfree p >>= fun _ => serve (f ())) s Q E
  rw [wp_bind]
  exact wp_kfree own hf h

end Xv6.Vm
