import Xv6.Exec

/-!
# The image that exec builds

While `exec` loads the file, the new directory maps the pages below the size that has been reached, all
for the user, besides the kernel part. None of the panics of `vm.c` is reached, whatever the file holds.
When the stack has been added, the page below it is not accessible to the user.
-/

namespace Xv6.Exec

open Vm

variable {l : Layout} {s s' s₀ : Mem} {d d' : Pgdir} {sz : Nat} {E : Fault → Prop} {ip : Inode}

/-- The kernel part of the directory, with no page table that is not needed. -/
structure KernelPart (l : Layout) (d : Pgdir) : Prop where
  entry : ∀ n < NPAGES, KERNBASE ≤ n * PGSIZE → d.entry n = kernelEntry (kmap l) n
  table : ∀ i : Fin NPDENTRIES, 512 ≤ i.val → (d.pde i).isSome →
    ∃ n < NPAGES, n / 1024 = i.val ∧ (d.entry n).isSome

/-- A directory with `sz` bytes of user memory that has been built since `s₀`. -/
structure Building (l : Layout) (s₀ s : Mem) (d : Pgdir) (sz : Nat) : Prop where
  grow : Grow s₀ 0 s d.pages
  size : sz < KERNBASE
  pages : UserPages d sz
  perm : ∀ n, n * PGSIZE < KERNBASE → ∀ e, d.entry n = some e → e.perm = PTE_W + PTE_U
  kernel : KernelPart l d

theorem KernelPart.agree {P : Nat → Prop} (h : KernelPart l d) (ha : Agree d d' P)
    (hP : ∀ n, KERNBASE ≤ n * PGSIZE → P n) : KernelPart l d' := by
  refine ⟨fun n hn hk => by rw [ha.entry n hn (hP n hk), h.entry n hn hk], ?_⟩
  intro i hi hsome
  rw [ha.table i hi] at hsome
  obtain ⟨n, hn, hni, he⟩ := h.table i hi hsome
  refine ⟨n, hn, hni, ?_⟩
  rwa [ha.entry n hn (hP n ?_)]
  simp only [KERNBASE, PGSIZE]
  omega

theorem mem_free_of_grow {p : Page} (h : Grow s₀ 0 s d.pages) (hp : p ∈ d.pages) : p ∈ s₀.free := by
  have hmem : p ∈ (s.free : Multiset Page) + d.pages := Multiset.mem_add.mpr (Or.inr hp)
  rw [h.pages, add_zero] at hmem
  exact Multiset.mem_coe.mp hmem

theorem Building.space (h : Building l s₀ s d sz) (hf : Fits s₀ 0) : Space s d sz :=
  ⟨h.grow.fits hf, h.size, h.pages⟩

theorem Building.write {p : Page} (h : Building l s₀ s d sz) (hp : p ∈ d.pages) (b : Bytes PGSIZE) :
    Building l s₀ (s.setData p b) d sz :=
  ⟨h.grow.write (mem_free_of_grow h.grow hp) b, h.size, h.pages, h.perm, h.kernel⟩

theorem Building.page (h : Building l s₀ s d sz) {a : Nat} (ha : a < sz) :
    ∃ e, d.lookup a = some e ∧ e.ppn ∈ d.pages := by
  have hsz := h.size
  have hle : a / PGSIZE * PGSIZE ≤ a := Nat.div_mul_le_self _ _
  have hround : sz ≤ PGROUNDUP sz := by
    rw [PGROUNDUP_eq (by simp only [PGSIZE, KERNBASE] at hsz ⊢; omega)]
    omega
  have hsome := (h.pages (a / PGSIZE) (by omega)).mpr (by omega)
  obtain ⟨e, he⟩ := Option.isSome_iff_exists.mp hsome
  exact ⟨e, by rw [lookup_eq_entry, he], mem_pages_of_entry (by omega) he⟩

/-! ### Segments -/

theorem loadRound_spec {addr offset len i : Nat} (h : Building l s₀ s d sz) (hin : addr + i < sz) :
    wp (loadRound d addr ip offset len i) s (fun _ s' => Building l s₀ s' d sz) E := by
  have hsz := h.size
  have hmod : (addr + i) % 2 ^ 32 = addr + i := Nat.mod_eq_of_lt (by
    simp only [KERNBASE] at hsz
    omega)
  obtain ⟨e, he, hmem⟩ := h.page hin
  rw [Pgdir.lookup, Option.bind_eq_some_iff] at he
  obtain ⟨t, ht, hte⟩ := he
  unfold loadRound
  simp only [hmod, ht, hte, Option.map_some, Option.getD_some]
  cases ip.readi ((offset + i) % 2 ^ 32) (min (len - i) PGSIZE) with
  | none => exact h
  | some bs =>
    dsimp only
    rw [wp_bind, wp_memmove]
    exact h.write hmem _

theorem loadLoop_spec {addr offset len : Nat} (fuel : Nat) {i : Nat} (h : Building l s₀ s d sz)
    (hin : addr + len ≤ sz) :
    wp (loadLoop d addr ip offset len fuel i) s (fun _ s' => Building l s₀ s' d sz) E := by
  induction fuel generalizing i s with
  | zero => exact h
  | succ fuel ih =>
    rw [loadLoop]
    split_ifs with hlt
    · refine wp_seq (loadRound_spec h (by omega)) ?_
      intro ok s₁ h₁
      cases ok with
      | true => exact ih h₁
      | false => exact h₁
    · exact h

theorem loaduvm_spec {addr offset len : Nat} (h : Building l s₀ s d sz) (ha : addr % PGSIZE = 0)
    (hin : addr + len ≤ sz) :
    wp (loaduvm d addr ip offset len) s (fun _ s' => Building l s₀ s' d sz) E := by
  unfold loaduvm
  rw [if_neg (by omega)]
  exact loadLoop_spec _ h hin

theorem allocuvm_building (newsz : Nat) (h : Building l s₀ s d sz) (hf : Fits s₀ 0) :
    wp (serve (allocuvm d sz newsz)) s (fun r s' =>
      Building l s₀ s' r.1 r.2 ∧ r.2 = max sz newsz ∨ r.2 = 0 ∧ Kept s₀ 0 s' r.1.pages) E := by
  have hsz := h.size
  by_cases hbig : KERNBASE ≤ newsz
  · unfold allocuvm
    rw [if_pos hbig]
    exact Or.inr ⟨rfl, h.grow.kept⟩
  by_cases hlt : newsz < sz
  · unfold allocuvm
    rw [if_neg (by omega), if_pos hlt]
    exact Or.inl ⟨h, (max_eq_left hlt.le).symm⟩
  have hsp := h.space hf
  have hround := hsp.round
  refine wp_mono (serve_allocuvm hsp.fits (by omega) (by omega) ?_) ?_
  · intro n h₁ h₂
    rw [← Option.not_isSome_iff_eq_none, h.pages n (by omega)]
    omega
  · rintro ⟨d', sz'⟩ s' (⟨hres, hall⟩ | ⟨hres, hun⟩)
    · change sz' = newsz at hres
      subst hres
      have hg := hall.grown (n := (sz' : Int) - sz) hsp (by omega) (by omega) (by omega)
      refine Or.inl ⟨⟨h.grow.trans hall.grow, by omega, hg.pages, ?_, ?_⟩,
        (max_eq_right (by omega)).symm⟩
      · intro n hn e he
        by_cases hin : PGROUNDUP sz ≤ n * PGSIZE ∧ n * PGSIZE < sz'
        · obtain ⟨p, -, hp, -⟩ := hall.new n (lt_NPAGES hn) hin.1 hin.2
          have he' : some e = some (⟨p, PTE_W + PTE_U⟩ : Pte) := he.symm.trans hp
          cases he'
          rfl
        · rw [hall.agree.entry n (lt_NPAGES hn) hin] at he
          exact h.perm n hn e he
      · exact h.kernel.agree hall.agree (fun n hn => by omega)
    · exact Or.inr ⟨hres, Kept.grow_trans h.grow hun.kept⟩

theorem loadSegment_spec {ph : Proghdr} (h : Building l s₀ s d sz) (hf : Fits s₀ 0)
    (hv : ph.vaddr < 2 ^ 32) (hm : ph.memsz < 2 ^ 32) :
    wp (loadSegment ip ph d sz) s (fun r s' =>
      match r.2 with
      | none => Kept s₀ 0 s' r.1.pages
      | some sz' => Building l s₀ s' r.1 sz') E := by
  unfold loadSegment
  by_cases htype : ph.type ≠ ELF_PROG_LOAD
  · rw [if_pos htype]
    exact h
  by_cases hsize : ph.memsz < ph.filesz
  · rw [if_neg htype, if_pos hsize]
    exact h.grow.kept
  by_cases hwrap : (ph.vaddr + ph.memsz) % 2 ^ 32 < ph.vaddr
  · rw [if_neg htype, if_neg hsize, if_pos hwrap]
    exact h.grow.kept
  rw [if_neg htype, if_neg hsize, if_neg hwrap]
  refine wp_seq (allocuvm_building _ h hf) ?_
  rintro ⟨d', sz'⟩ s₁ hres
  dsimp only at hres ⊢
  by_cases hzero : sz' = 0
  · rw [if_pos hzero]
    rcases hres with ⟨hb, -⟩ | ⟨-, hk⟩
    · exact hb.grow.kept
    · exact hk
  obtain ⟨hb, hle⟩ := hres.resolve_right (fun hc => hzero hc.1)
  rw [if_neg hzero]
  by_cases halign : ph.vaddr % PGSIZE ≠ 0
  · rw [if_pos halign]
    exact hb.grow.kept
  · rw [if_neg halign]
    refine wp_seq (loaduvm_spec hb (by omega) (by omega)) ?_
    intro ok s₂ hb₂
    cases ok with
    | true => exact hb₂
    | false => exact hb₂.grow.kept

theorem field_lt (bs : List UInt8) (off : Nat) : field bs off 4 < 2 ^ 32 :=
  (leWord_lt _ off 4).trans_eq (by norm_num)

theorem proghdr_lt {off : Nat} {ph : Proghdr} (h : ip.proghdr off = some ph) :
    ph.vaddr < 2 ^ 32 ∧ ph.memsz < 2 ^ 32 := by
  rw [Inode.proghdr, Option.map_eq_some_iff] at h
  obtain ⟨bs, -, rfl⟩ := h
  exact ⟨field_lt _ _, field_lt _ _⟩

theorem loadSegments_spec (n : Nat) {off : Nat} (h : Building l s₀ s d sz) (hf : Fits s₀ 0) :
    wp (loadSegments ip n off d sz) s (fun r s' =>
      match r.2 with
      | none => Kept s₀ 0 s' r.1.pages
      | some sz' => Building l s₀ s' r.1 sz') E := by
  induction n generalizing off d sz s with
  | zero => exact h
  | succ n ih =>
    rw [loadSegments]
    cases hph : ip.proghdr off with
    | none => exact h.grow.kept
    | some ph =>
      obtain ⟨hv, hm⟩ := proghdr_lt hph
      dsimp only
      refine wp_seq (loadSegment_spec h hf hv hm) ?_
      rintro ⟨d', _ | sz'⟩ s₁ h₁
      · exact h₁
      · exact ih h₁

theorem building_zero (hg : Grow s₀ 0 s d.pages) (hd : Dense d)
    (he : ∀ n < NPAGES, d.entry n = kernelEntry (kmap l) n) : Building l s₀ s d 0 := by
  have hnone : ∀ n, n * PGSIZE < KERNBASE → d.entry n = none := by
    intro n hn
    rw [he n (lt_NPAGES hn), ← Option.not_isSome_iff_eq_none, kernelEntry_isSome]
    simp only [InKernel, KERNBASE, DEVSPACE] at hn ⊢
    omega
  have hround : PGROUNDUP 0 = 0 := by decide
  refine ⟨hg, by decide, ?_, ?_, fun n hn _ => he n hn, fun i _ hi => hd i hi⟩
  · intro n hn
    rw [hnone n hn, hround]
    simp
  · intro n hn e hc
    rw [hnone n hn] at hc
    cases hc

theorem loadFile_spec (l : Layout) (ip : Inode) (hf : Fits s 0) :
    wp (loadFile l ip) s (fun r s' =>
      match r with
      | .error none => Kept s 0 s' 0
      | .error (some d) => Kept s 0 s' d.pages
      | .ok (d, _, sz) => Building l s s' d sz) E := by
  have hrefl : Kept s 0 s 0 := (Grow.refl s 0).kept
  unfold loadFile
  cases ip.elfhdr with
  | none => exact hrefl
  | some elf =>
    dsimp only
    split_ifs with hmagic
    · exact hrefl
    · refine wp_seq (serve_setupkvm l s hf) ?_
      rintro (_ | d) s₁ hres
      · exact hres
      · obtain ⟨hg, hd, he⟩ := hres
        dsimp only
        refine wp_seq (loadSegments_spec elf.phnum (building_zero hg hd he) hf) ?_
        rintro ⟨d', _ | sz'⟩ s₂ h₂
        · exact h₂
        · exact h₂

/-! ### The stack -/

/-- The image with its stack, which ends at `sz`. -/
structure Stacked (l : Layout) (s₀ s : Mem) (d : Pgdir) (sz : Nat) : Prop where
  grow : Grow s₀ 0 s d.pages
  size : sz < KERNBASE
  room : 2 * PGSIZE ≤ sz
  aligned : sz % PGSIZE = 0
  pages : UserPages d sz
  perm : ∀ n, n * PGSIZE < KERNBASE → ∀ e, d.entry n = some e →
    (e.perm &&& PTE_U = 0 ↔ n * PGSIZE = sz - 2 * PGSIZE)
  kernel : KernelPart l d

/-- The directory after `clearpteu`. -/
structure Guarded (d : Pgdir) (a : Nat) (d' : Pgdir) : Prop where
  pages : d'.pages = d.pages
  entry : ∀ n < NPAGES, d'.entry n = if n = a / PGSIZE then
    (d.entry n).map (fun e => ⟨e.ppn, e.perm - (e.perm &&& PTE_U)⟩) else d.entry n
  table : ∀ i, (d'.pde i).isSome = (d.pde i).isSome

theorem clearpteu_guarded {a : Nat} (ha : a < 2 ^ 32) (h : (d.lookup a).isSome) :
    wp (serve (clearpteu d a)) s (fun d' s' => s' = s ∧ Guarded d a d') E := by
  obtain ⟨e, he⟩ := Option.isSome_iff_exists.mp h
  rw [Pgdir.lookup, Option.bind_eq_some_iff] at he
  obtain ⟨t, ht, hte⟩ := he
  unfold clearpteu
  simp only [ht]
  refine ⟨rfl, ?_, ?_, fun i => pde_setPte ht i⟩
  · have hset := pages_setPte ht ((t.pte (PTX a)).map
      (fun e => ⟨e.ppn, e.perm - (e.perm &&& PTE_U)⟩))
    have hsame : ownedPage a ((t.pte (PTX a)).map
        (fun e => ⟨e.ppn, e.perm - (e.perm &&& PTE_U)⟩)) = ownedPage a (t.pte (PTX a)) := by
      rw [hte]
      rfl
    rw [hsame] at hset
    exact add_right_cancel hset
  · intro n hn
    rw [entry_setPte ht _ ha hn]
    split_ifs with hna
    · rw [hna, ← lookup_eq_entry, lookup_of_pde ht]
    · rfl

theorem Building.stacked (h : Building l s₀ s d sz) (hroom : 2 * PGSIZE ≤ sz)
    (halign : sz % PGSIZE = 0) (hg : Guarded d (sz - 2 * PGSIZE) d') : Stacked l s₀ s d' sz := by
  have hsz := h.size
  have hguard : ∀ n, n = (sz - 2 * PGSIZE) / PGSIZE ↔ n * PGSIZE = sz - 2 * PGSIZE := by
    intro n
    simp only [PGSIZE] at halign hroom ⊢
    omega
  refine ⟨h.grow.cast rfl hg.pages, hsz, hroom, halign, ?_, ?_, ?_⟩
  · intro n hn
    rw [hg.entry n (lt_NPAGES hn), ← h.pages n hn]
    split_ifs
    · rw [Option.isSome_map]
    · rfl
  · intro n hn e he
    rw [hg.entry n (lt_NPAGES hn)] at he
    split_ifs at he with hna
    · rw [Option.map_eq_some_iff] at he
      obtain ⟨e₀, he₀, rfl⟩ := he
      have hperm := h.perm n hn e₀ he₀
      refine iff_of_true ?_ ((hguard n).mp hna)
      simp only [hperm]
      decide
    · refine iff_of_false ?_ (fun hc => hna ((hguard n).mpr hc))
      rw [h.perm n hn e he]
      decide
  · refine h.kernel.agree ⟨fun n hn hne => ?_, fun i _ => hg.table i⟩
      (P := fun n => KERNBASE ≤ n * PGSIZE) (fun n hn => hn)
    rw [hg.entry n hn, if_neg]
    intro hc
    rw [(hguard n).mp hc] at hne
    omega

theorem allocStack_spec (h : Building l s₀ s d sz) (hf : Fits s₀ 0) :
    wp (allocStack d sz) s (fun r s' =>
      match r.2 with
      | none => Kept s₀ 0 s' r.1.pages
      | some sz' => Stacked l s₀ s' r.1 sz') E := by
  have hround := (h.space hf).round
  have hsz := h.size
  simp only [KERNBASE] at hsz
  unfold allocStack
  dsimp only
  generalize htop : PGROUNDUP sz + 2 * PGSIZE = top
  simp only [PGSIZE] at htop
  rw [Nat.mod_eq_of_lt (show top < 2 ^ 32 by omega), wp_bind]
  by_cases hbig : KERNBASE ≤ top
  · unfold allocuvm
    rw [if_pos hbig]
    exact h.grow.kept
  have hidem : PGROUNDUP (PGROUNDUP sz) = PGROUNDUP sz := by
    rw [PGROUNDUP_eq (by simp only [PGSIZE]; omega), hround]
    omega
  have h' : Building l s₀ s d (PGROUNDUP sz) := by
    refine ⟨h.grow, by omega, ?_, h.perm, h.kernel⟩
    intro n hn
    rw [hidem]
    exact h.pages n hn
  refine wp_mono (allocuvm_building _ h' hf) ?_
  rintro ⟨d', sz'⟩ s₁ hres
  dsimp only at hres ⊢
  by_cases hzero : sz' = 0
  · rw [if_pos hzero]
    rcases hres with ⟨hb, -⟩ | ⟨-, hk⟩
    · exact hb.grow.kept
    · exact hk
  obtain ⟨hb, hsz'⟩ := hres.resolve_right (fun hc => hzero hc.1)
  rw [max_eq_right (by omega)] at hsz'
  subst hsz'
  obtain ⟨e, he, -⟩ := hb.page (a := sz' - 2 * PGSIZE) (by simp only [PGSIZE]; omega)
  rw [if_neg hzero]
  refine wp_seq (clearpteu_guarded (by simp only [PGSIZE]; omega)
    (by rw [he]; rfl)) ?_
  rintro d₂ s₂ ⟨rfl, hg⟩
  refine hb.stacked (by simp only [PGSIZE]; omega) ?_ hg
  rw [← htop, hround]
  simp only [PGSIZE]
  omega

end Xv6.Exec
