import Xv6.MemoryGrow

/-!
# Copying an address space

`copyuvm` with the contents of the pages. It either gives back every page that it has taken, or
returns a directory that maps a copy of each user page of the parent with the same permissions.
-/

namespace Xv6.Vm

open Alloc

variable {s s' s₀ : Mem} {d d' pgdir : Pgdir} {l : Layout} {E : Fault → Prop} {i sz : Nat}

/-- The pages of `pgdir` below `i` have been copied to `d`. -/
structure Copied (l : Layout) (pgdir : Pgdir) (s₀ : Mem) (i : Nat) (s : Mem) (d : Pgdir) : Prop where
  grow : Grow s₀ 0 s d.pages
  page : ∀ n < NPAGES, n * PGSIZE < i → ∃ e p, pgdir.entry n = some e ∧ p ∈ s₀.free ∧
    d.entry n = some ⟨p, e.perm⟩ ∧ s.data p = s₀.data e.ppn
  above : ∀ n < NPAGES, i ≤ n * PGSIZE → d.entry n = kernelEntry (kmap l) n

theorem Copied.step {e : Pte} {mem : Page} {s₁ s₂ : Mem} (h : Copied l pgdir s₀ i s d)
    (hf : Fits s₀ pgdir.pages) (hi : i % PGSIZE = 0) (hlt : i < KERNBASE)
    (he : pgdir.entry (i / PGSIZE) = some e) (hmem : mem ∈ s.free)
    (hs₁ : Grow s d.pages s₁ (d.pages + {mem}))
    (hs₂ : Grow (s₁.setData mem (s₁.data e.ppn)) (d.pages + {mem}) s₂ d'.pages)
    (hmap : Mapped d i ⟨mem, e.perm⟩ d') : Copied l pgdir s₀ (i + PGSIZE) s₂ d' := by
  have hmem₀ : mem ∈ s₀.free := h.grow.free mem hmem
  have hf₀ : Fits s₀ 0 := hf.mono (Multiset.zero_le _)
  have hwrite : Grow s₀ 0 (s₁.setData mem (s₁.data e.ppn)) (d.pages + {mem}) :=
    (h.grow.trans hs₁).write hmem₀ _
  have hout : ∀ q ∈ d.pages + {mem}, q ∉ (s₁.setData mem (s₁.data e.ppn)).free :=
    fun q hq => (hwrite.fits hf₀).not_free hq
  have hmul : i / PGSIZE * PGSIZE = i := Nat.div_mul_cancel (Nat.dvd_of_mod_eq_zero hi)
  have hparent : s₁.data e.ppn = s₀.data e.ppn :=
    (h.grow.trans hs₁).data _ (hf.not_free (mem_pages_of_entry (hmul.symm ▸ hlt) he))
  refine ⟨hwrite.trans hs₂, ?_, ?_⟩
  · intro n hn hni
    rw [hmap.entry n hn]
    by_cases hna : n = i / PGSIZE
    · refine ⟨e, mem, hna ▸ he, hmem₀, if_pos hna, ?_⟩
      rw [hs₂.data mem (hout mem (Multiset.mem_add.mpr (Or.inr (Multiset.mem_singleton_self mem)))),
        Mem.setData_self, hparent]
    · have hlt' : n * PGSIZE < i := by
        simp only [PGSIZE] at hna hi hni ⊢
        omega
      obtain ⟨e', p, he', hp, hd, hdata⟩ := h.page n hn hlt'
      have hpd : p ∈ d.pages := mem_pages_of_entry (hlt'.trans hlt) hd
      have hne : p ≠ mem := by
        intro hc
        exact (h.grow.fits hf₀).not_free hpd (hc ▸ hmem)
      refine ⟨e', p, he', hp, by rw [if_neg hna, hd], ?_⟩
      rw [hs₂.data p (hout p (Multiset.mem_add.mpr (Or.inl hpd))), s₁.setData_of_ne hne,
        hs₁.data p ((h.grow.fits hf₀).not_free hpd), hdata]
  · intro n hn hni
    have hna : n ≠ i / PGSIZE := by
      intro hc
      rw [hc, hmul] at hni
      simp only [PGSIZE] at hni
      omega
    rw [hmap.entry n hn, if_neg hna]
    exact h.above n hn (by omega)

theorem serve_copyRound {e : Pte} (h : Copied l pgdir s₀ i s d) (hf : Fits s₀ pgdir.pages)
    (hi : i % PGSIZE = 0) (hlt : i < KERNBASE) (he : pgdir.entry (i / PGSIZE) = some e) :
    wp (serve (copyRound e i d)) s (fun r s' =>
      match r with
      | none => Kept s₀ 0 s' 0
      | some d' => Copied l pgdir s₀ (i + PGSIZE) s' d') E := by
  have hfs : Fits s d.pages := h.grow.fits (hf.mono (Multiset.zero_le _))
  have hmul : i / PGSIZE * PGSIZE = i := Nat.div_mul_cancel (Nat.dvd_of_mod_eq_zero hi)
  have hnone : d.entry (i / PGSIZE) = none := by
    have hn : i / PGSIZE < NPAGES := by
      simp only [PGSIZE, NPAGES, KERNBASE] at hlt ⊢
      omega
    rw [h.above _ hn (by rw [hmul]), ← Option.not_isSome_iff_eq_none, kernelEntry_isSome, hmul]
    simp only [InKernel, KERNBASE, DEVSPACE] at hlt ⊢
    omega
  refine wp_serve_mapFresh hlt hi hnone (fun _ => rfl) ?_ ?_ ?_
  · intro s₁ hs₁
    refine wp_serve_seq (serve_freevm s₁ d (hs₁.fits hfs)) ?_
    intro _ s₂ hs₂
    exact (h.grow.trans hs₁).kept.trans_shrink hs₂
  · intro mem s₁ s₂ d' hmem hs₁ hs₂ hmap
    exact h.step hf hi hlt he hmem hs₁ hs₂ hmap
  · intro mem s₂ hgrow
    have hfs₂ := hgrow.fits hfs
    refine wp_serve_kfree d.pages hfs₂ ?_
    intro s₃ hs₃
    refine wp_serve_seq (serve_freevm s₃ d (hs₃.fits hfs₂)) ?_
    intro _ s₄ hs₄
    exact (h.grow.trans hgrow).kept.trans_shrink (hs₃.trans hs₄)

theorem serve_copyLoop (hsp : Space s₀ pgdir sz) (fuel : Nat) (h : Copied l pgdir s₀ i s d)
    (hi : i % PGSIZE = 0) (hend : i < sz + PGSIZE) (hfuel : sz ≤ i + fuel * PGSIZE) :
    wp (serve (copyLoop pgdir sz fuel i d)) s (fun r s' =>
      match r with
      | none => Kept s₀ 0 s' 0
      | some d' => Copied l pgdir s₀ (PGROUNDUP sz) s' d') E := by
  have hround := hsp.round
  have hsz := hsp.size
  have hdone : ∀ i, i % PGSIZE = 0 → i < sz + PGSIZE → sz ≤ i → i = PGROUNDUP sz := by
    intro i hi hend hle
    simp only [PGSIZE] at hi hend
    omega
  induction fuel generalizing i d s with
  | zero => exact hdone i hi hend (by omega) ▸ h
  | succ fuel ih =>
    unfold copyLoop
    split_ifs with hlt
    · have hmul : i / PGSIZE * PGSIZE = i := Nat.div_mul_cancel (Nat.dvd_of_mod_eq_zero hi)
      have hsome : (pgdir.entry (i / PGSIZE)).isSome := by
        rw [hsp.pages _ (by rw [hmul]; omega), hmul]
        omega
      obtain ⟨e, he⟩ := Option.isSome_iff_exists.mp hsome
      have hlook := he
      rw [← lookup_eq_entry, Pgdir.lookup, Option.bind_eq_some_iff] at hlook
      obtain ⟨t, ht, hte⟩ := hlook
      simp only [ht, hte]
      refine wp_serve_seq (serve_copyRound h hsp.fits hi (by omega) he) ?_
      rintro (_ | d') s₁ hres
      · exact hres
      · refine ih hres (by simp only [PGSIZE] at hi ⊢; omega) (by omega) ?_
        simp only [PGSIZE] at hfuel ⊢
        omega
    · exact hdone i hi hend (by omega) ▸ h

theorem serve_copyuvm (l : Layout) (hsp : Space s pgdir sz) :
    wp (serve (copyuvm l pgdir sz)) s (fun r s' =>
      match r with
      | none => Kept s 0 s' 0
      | some d' => Copied l pgdir s (PGROUNDUP sz) s' d') E := by
  refine wp_serve_seq (serve_setupkvm l s (hsp.fits.mono (Multiset.zero_le _))) ?_
  rintro (_ | d) s₁ hres
  · exact hres
  · obtain ⟨hgrow, -, hentry⟩ := hres
    refine serve_copyLoop hsp _ ⟨hgrow, fun n _ hn => by omega, fun n hn _ => hentry n hn⟩ rfl ?_ ?_
    · simp only [PGSIZE]
      omega
    · simp only [PGSIZE]
      omega

/-- What `copyuvm` returns for a process of size `sz`. -/
structure Duplicate (l : Layout) (s : Mem) (pgdir : Pgdir) (sz : Nat) (s' : Mem) (d : Pgdir) :
    Prop where
  owned : Fits s' (pgdir.pages + d.pages)
  page : ∀ va < PGROUNDUP sz, ∃ e e', pgdir.lookup va = some e ∧ d.lookup va = some e' ∧
    e'.perm = e.perm ∧ s'.byte d va = s.byte pgdir va ∧
    ∀ va' < KERNBASE, ∀ e'', pgdir.lookup va' = some e'' → e''.ppn ≠ e'.ppn
  above : ∀ va, PGROUNDUP sz ≤ va → va < KERNBASE → d.lookup va = none
  kernel : ∀ s₁ s₂ d₁, Fits s₁ 0 → serve (setupkvm l) s₁ = .ok (some d₁, s₂) →
    ∀ va, KERNBASE ≤ va → va < 2 ^ 32 → d.lookup va = d₁.lookup va

theorem Copied.duplicate (h : Copied l pgdir s (PGROUNDUP sz) s' d) (hsp : Space s pgdir sz) :
    Duplicate l s pgdir sz s' d := by
  have hsz := hsp.size
  have hround := hsp.round
  have hpages : ∀ va < 2 ^ 32, va / PGSIZE < NPAGES := by
    intro va hva
    simp only [PGSIZE, NPAGES]
    omega
  simp only [KERNBASE] at hsz
  refine ⟨?_, ?_, ?_, ?_⟩
  · refine ((h.grow.frame pgdir.pages).cast (zero_add _).symm (add_comm _ _)).fits hsp.fits
  · intro va hva
    have hle : va / PGSIZE * PGSIZE ≤ va := Nat.div_mul_le_self _ _
    obtain ⟨e, p, he, hp, hd, hdata⟩ := h.page (va / PGSIZE) (hpages va (by omega)) (by omega)
    refine ⟨e, ⟨p, e.perm⟩, ?_, ?_, rfl, ?_, ?_⟩
    · rw [lookup_eq_entry, he]
    · rw [lookup_eq_entry, hd]
    · simp only [Mem.byte, lookup_eq_entry, he, hd, Option.map_some, hdata]
    · intro va' hva' e'' he'' hc
      rw [lookup_eq_entry] at he''
      have hmem := mem_pages_of_entry (lt_of_le_of_lt (Nat.div_mul_le_self _ _) hva') he''
      change e''.ppn = p at hc
      exact hsp.fits.not_free hmem (hc.symm ▸ hp)
  · intro va h₁ h₂
    have hge : PGROUNDUP sz ≤ va / PGSIZE * PGSIZE := by
      simp only [PGSIZE]
      omega
    simp only [KERNBASE] at h₂
    rw [lookup_eq_entry, h.above _ (hpages va (by omega)) hge, ← Option.not_isSome_iff_eq_none,
      kernelEntry_isSome]
    simp only [InKernel, KERNBASE, DEVSPACE, PGSIZE]
    omega
  · intro s₁ s₂ d₁ hf₁ hsetup va h₁ h₂
    have hspec := wp_ok (E := fun _ => True) (serve_setupkvm l s₁ hf₁) hsetup
    simp only [KERNBASE] at h₁
    rw [lookup_eq_entry, lookup_eq_entry, hspec.2.2 _ (hpages va h₂),
      h.above _ (hpages va h₂) (by simp only [PGSIZE]; omega)]

/-- `copyuvm` does not panic; it copies the address space or gives back what it took. -/
theorem copyuvm_exact (l : Layout) (hsp : Space s pgdir sz) :
    ∃ r s', serve (copyuvm l pgdir sz) s = .ok (r, s') ∧
      (∀ va < KERNBASE, s'.byte pgdir va = s.byte pgdir va) ∧
      match r with
      | none => (s'.free : Multiset Page) = s.free
      | some d => Duplicate l s pgdir sz s' d := by
  have hspec := serve_copyuvm (E := fun _ => False) l hsp
  obtain ⟨r, s', hrun, hpost⟩ := wp_returns hspec (fun _ h => h)
  refine ⟨r, s', hrun, ?_, ?_⟩
  · have hkept : ∀ p ∈ pgdir.pages, s'.data p = s.data p := by
      intro p hp
      cases r with
      | none =>
        have hk : Kept s pgdir.pages s' pgdir.pages :=
          (Kept.frame hpost pgdir.pages).cast (zero_add _).symm (zero_add _).symm
        exact hk.data_of_mem hsp.fits hp hp
      | some d =>
        have hc : Copied l pgdir s (PGROUNDUP sz) s' d := hpost
        exact hc.grow.data p (hsp.fits.not_free hp)
    intro va hva
    refine byte_congr rfl (fun e he => hkept _ ?_)
    rw [lookup_eq_entry] at he
    exact mem_pages_of_entry (lt_of_le_of_lt (Nat.div_mul_le_self _ _) hva) he
  · cases r with
    | none =>
      have hk : Kept s 0 s' 0 := hpost
      simpa using hk.pages
    | some d => exact Copied.duplicate hpost hsp

/-- Where the data of the kernel begin, for an example. -/
def someLayout : Layout := ⟨KERNLINK + 0x100000, by decide, by decide, by decide⟩

theorem onePage_copied : Space freshMem onePage 4096 ∧
    ∃ d s', serve (copyuvm someLayout onePage 4096) freshMem = .ok (some d, s') ∧
      Duplicate someLayout freshMem onePage 4096 s' d := by
  have hroom := @copyuvm_room freshMem someLayout 0 onePage 4096 1 (fun _ => rfl)
    (by rw [freshMem_length]; decide) (by decide)
  obtain ⟨r, s', hrun, -, hcopy⟩ := copyuvm_exact someLayout onePage_freshMem
  obtain ⟨d, rfl, -⟩ := wp_ok hroom hrun
  exact ⟨onePage_freshMem, d, s', hrun, hcopy⟩

end Xv6.Vm
