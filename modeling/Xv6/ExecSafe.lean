import Xv6.ExecLong
import Xv6.MemoryCopy

/-!
# What exec guarantees

No file makes `exec` panic, the stack decodes to the arguments, and `exec` does everything or nothing
unless one of the strings begins in the gap.
-/

namespace Xv6.Exec

open Vm

variable {l : Layout} {null : Null} {ip : Inode} {path : List UInt8} {argv : List (List UInt8)}
  {s s' : State} {d : Pgdir} {sz : Nat} {m₀ m : Mem}

theorem Runs.image' {m₂ : Mem} {old : Pgdir} (h : Runs l m₀ old argv m₂ s') :
    Image s'.proc.pgdir s'.proc.sz := by
  have hround := h.image.round
  refine ⟨h.image.size, ?_, ?_, fun n e hn he => h.image.perm n hn e he⟩
  · intro n hn
    rw [h.image.pages n hn, hround]
  · intro n n' e e' hn hn' he he' hpp
    exact entry_injective (Multiset.nodup_add.mp h.fits.nodup).2.1 hn hn' he he' hpp

/-- Whatever the file holds and whichever calls of `kalloc` fail, `exec` returns. -/
theorem exec_returns (l : Layout) (null : Null) (ip : Inode) (path : List UInt8)
    (hf : Fits s.mem s.proc.pgdir.pages)
    (hargv : ∀ entry d sz m, Loads l ip s.mem entry d sz m → ∀ a ∈ argv, a.length < sz) :
    ∃ r s', exec l null (some ip) path argv s = .ok (r, s') ∧
      (r = -1 ∨ r = 0 ∧ Image s'.proc.pgdir s'.proc.sz) := by
  have hf₀ : Fits s.mem 0 := hf.mono (Multiset.zero_le _)
  have hsmall : ∀ entry d sz m, Loads l ip s.mem entry d sz m → ∀ a ∈ argv, a.length < KERNBASE :=
    fun entry d sz m hl a ha => (hargv entry d sz m hl a ha).trans (hl.stacked hf₀).size
  have hno : ¬ ExecGap l ip argv s.mem := by
    rintro ⟨entry, d, sz, m, hl, hm⟩
    exact not_meetsGap (hl.stacked hf₀).size (Nat.sub_le _ _) le_rfl (hargv entry d sz m hl) hm
  have hspec := exec_spec l null ip path hf hsmall
  obtain ⟨r, s', hrun, -, hpost⟩ := wp_returns hspec (fun e he => hno he.1)
  refine ⟨r, s', hrun, ?_⟩
  rcases hpost with ⟨hr, -⟩ | ⟨hr, m₂, -, hruns⟩
  · exact Or.inl hr
  · exact Or.inr ⟨hr, hruns.image'⟩

/-- A caller with one page. -/
def onePageCaller (m : Mem) : State := ⟨m, ⟨onePage, 4096, 0, 4096, []⟩, 0, 0, false, 0⟩

/-- When `exec` returns 0, the arguments are on the stack, and the image is as it was loaded
otherwise. -/
theorem exec_stack_decodes (hf : Fits s.mem s.proc.pgdir.pages)
    (hargv : ∀ a ∈ argv, a.length < KERNBASE)
    (hrun : exec l null (some ip) path argv s = .ok (0, s')) :
    ArgvStack s'.mem s'.proc.pgdir s'.proc.sz s'.proc.esp argv ∧
      ∃ m, Loads l ip s.mem s'.proc.eip s'.proc.pgdir s'.proc.sz m ∧
        ∀ va < s'.proc.sz, ¬ IsArgument s'.mem s'.proc.pgdir s'.proc.esp argv va →
          s'.mem.byte s'.proc.pgdir va = m.byte s'.proc.pgdir va := by
  have hspec := exec_spec l null ip path hf (fun _ _ _ _ _ => hargv)
  obtain ⟨-, hpost⟩ := wp_ok hspec hrun
  rcases hpost with ⟨hr, -⟩ | ⟨-, m, hl, hruns⟩
  · cases hr
  · exact ⟨hruns.stack, m, hl, hruns.rest⟩

/-- The arguments of `ls -l`. -/
def twoArguments : List (List UInt8) := [[108, 115], [45, 108]]

theorem twoArguments_length : ∀ a ∈ twoArguments, a.length = 2 := by decide

/-- No image is too small for them. -/
theorem Loads.twoArguments_lt {entry : Nat} (h : Loads l ip m₀ entry d sz m) (hf : Fits m₀ 0) :
    ∀ a ∈ twoArguments, a.length < sz := by
  have hroom := (h.stacked hf).room
  intro a ha
  rw [twoArguments_length a ha]
  simp only [PGSIZE] at hroom
  omega

theorem twoArguments_run : ∃ s', exec someLayout (fun _ => none) (some emptyElf) [] twoArguments
    (onePageCaller freshMem) = .ok (0, s') := by
  obtain ⟨d, m, hload⟩ := emptyElf_loads someLayout freshMem_fits (fun _ => rfl)
    (by rw [freshMem_length]; decide)
  have hzero : wp (exec someLayout (fun _ => none) (some emptyElf) [] twoArguments)
      (onePageCaller freshMem) (fun r _ => r = 0) (fun _ => False) :=
    exec_fit onePage_freshMem.fits hload (hload.twoArguments_lt freshMem_fits)
      (by unfold Fit; decide)
  obtain ⟨r, s', hrun, rfl⟩ := wp_returns hzero (fun _ h => h)
  exact ⟨s', hrun⟩

theorem twoArguments_returns : ∃ s', exec someLayout (fun _ => none) (some emptyElf) [] twoArguments
    (onePageCaller freshMem) = .ok (0, s') ∧ Image s'.proc.pgdir s'.proc.sz := by
  obtain ⟨s', hrun⟩ := twoArguments_run
  obtain ⟨r, s₁, hrun₁, hpost⟩ := exec_returns (s := onePageCaller freshMem) someLayout
    (fun _ => none) emptyElf [] onePage_freshMem.fits
    (fun _ _ _ _ hload => hload.twoArguments_lt freshMem_fits)
  rw [hrun] at hrun₁
  cases hrun₁
  exact ⟨s', hrun, (hpost.resolve_left (by decide)).2⟩

theorem twoArguments_decode : ∃ s', exec someLayout (fun _ => none) (some emptyElf) [] twoArguments
      (onePageCaller freshMem) = .ok (0, s') ∧
    ArgvStack s'.mem s'.proc.pgdir s'.proc.sz s'.proc.esp twoArguments := by
  obtain ⟨s', hrun⟩ := twoArguments_run
  exact ⟨s', hrun, (exec_stack_decodes (s := onePageCaller freshMem) onePage_freshMem.fits
    (fun a ha => by rw [twoArguments_length a ha]; decide) hrun).1⟩

/-- `exec` fails and leaves the process as it is, or succeeds and frees the old address space. -/
def AllOrNothing (l : Layout) (null : Null) (ip : Option Inode) (path : List UInt8)
    (argv : List (List UInt8)) (s : State) : Prop :=
  ∃ r s', exec l null ip path argv s = .ok (r, s') ∧ Settled s s' ∧
    (r = -1 ∧ s'.proc = s.proc ∧
        (∀ va < KERNBASE, s'.mem.byte s.proc.pgdir va = s.mem.byte s.proc.pgdir va) ∧
        (s'.mem.free : Multiset Page) = s.mem.free ∨
      r = 0 ∧ (∀ p ∈ s.proc.pgdir.pages, p ∈ s'.mem.free) ∧
        (s'.mem.free : Multiset Page) + s'.proc.pgdir.pages = s.mem.free + s.proc.pgdir.pages)

theorem Kept.unchanged {m' : Mem} {old : Pgdir} (h : Kept m 0 m' 0) (hf : Fits m old.pages) {va : Nat}
    (hva : va < KERNBASE) : m'.byte old va = m.byte old va := by
  have hk : Kept m old.pages m' old.pages :=
    (h.frame old.pages).cast (zero_add _).symm (zero_add _).symm
  refine byte_congr rfl ?_
  intro e he
  rw [lookup_eq_entry] at he
  have hmem := mem_pages_of_entry (lt_of_le_of_lt (Nat.div_mul_le_self _ _) hva) he
  exact hk.data_of_mem hf hmem hmem

theorem Runs.freed {m₂ : Mem} {old : Pgdir} (h : Runs l m₀ old argv m₂ s') (hf : Fits m₀ old.pages)
    {p : Page} (hp : p ∈ old.pages) : p ∈ s'.mem.free := by
  have hmem : p ∈ (s'.mem.free : Multiset Page) + s'.proc.pgdir.pages := by
    rw [h.pages]
    exact Multiset.mem_add.mpr (Or.inr hp)
  rcases Multiset.mem_add.mp hmem with hfree | hnew
  · exact hfree
  · exact absurd (mem_free_of_grow h.image.grow hnew) (hf.not_free hp)

theorem allOrNothing_none (hl : s.locked = false) : AllOrNothing l null none path argv s :=
  ⟨-1, _, rfl, ⟨rfl, rfl, hl, rfl⟩, Or.inl ⟨rfl, rfl, fun _ _ => rfl, rfl⟩⟩

theorem exec_traps (hf : Fits s.mem s.proc.pgdir.pages) (hgap : ExecGap l ip argv s.mem) :
    wp (exec l (fun _ => none) (some ip) path argv) s (fun _ _ => False) (fun _ => True) := by
  obtain ⟨entry, d, sz, m, hload, hm⟩ := hgap
  have hst := hload.stacked (hf.mono (Multiset.zero_le _))
  obtain ⟨ps, hps⟩ := hst.exists_stackPage
  refine wp_exec_loads hload ?_
  exact wp_conseq (pushArgs_traps hst hps hm) (fun _ _ hc => hc.elim) (fun _ _ => trivial)

/-- Whatever is at address zero, `exec` does everything or nothing, exactly if no string begins in
the gap. -/
theorem exec_allOrNothing_iff (l : Layout) (ip : Option Inode) (path : List UInt8)
    (hf : Fits s.mem s.proc.pgdir.pages) (hl : s.locked = false)
    (hargv : ∀ a ∈ argv, a.length < KERNBASE) :
    (∀ null, AllOrNothing l null ip path argv s) ↔ ∀ i, ip = some i → ¬ ExecGap l i argv s.mem := by
  constructor
  · rintro h i rfl hgap
    obtain ⟨r, s', hrun, -⟩ := h (fun _ => none)
    exact wp_ok (exec_traps hf hgap) hrun
  · intro h null
    cases ip with
    | none => exact allOrNothing_none hl
    | some ip =>
      have hno := h ip rfl
      have hspec := exec_spec l null ip path hf (fun _ _ _ _ _ => hargv)
      obtain ⟨r, s', hrun, hset, hpost⟩ := wp_returns hspec (fun e he => hno he.1)
      refine ⟨r, s', hrun, hset, ?_⟩
      rcases hpost with ⟨hr, hproc, hkept⟩ | ⟨hr, m₂, -, hruns⟩
      · have hk := hkept hno
        refine Or.inl ⟨hr, hproc, fun va hva => Kept.unchanged hk hf hva, ?_⟩
        have hpages := hk.pages
        rwa [add_zero, add_zero] at hpages
      · exact Or.inr ⟨hr, fun p hp => hruns.freed hf hp, hruns.pages⟩

theorem shortArgument_allOrNothing : Fits freshMem onePage.pages ∧ ∀ null,
    AllOrNothing someLayout null (some emptyElf) [] twoArguments (onePageCaller freshMem) := by
  refine ⟨onePage_freshMem.fits, (exec_allOrNothing_iff someLayout (some emptyElf) []
    onePage_freshMem.fits rfl (fun a ha => by rw [twoArguments_length a ha]; decide)).mpr ?_⟩
  rintro i - ⟨entry, d, sz, m, hload, hm⟩
  exact not_meetsGap (hload.stacked freshMem_fits).size (Nat.sub_le _ _) le_rfl
    (hload.twoArguments_lt freshMem_fits) hm

/-- The first word of the caller's memory, which is what a read of address zero gives. -/
def addressZero (d : Pgdir) : Null := fun m =>
  (d.lookup 0).map (fun e => (m.data e.ppn).word 0 4)

/-- The string `a` is in memory at address `va`. -/
def StringAt (m : Mem) (d : Pgdir) (va : Nat) (a : List UInt8) : Prop :=
  (∀ i < a.length, m.byte d (va + i) = some (a.getD i 0)) ∧ m.byte d (va + a.length) = some 0

/-- A string of 8448 pages. -/
def longString : List UInt8 := List.replicate 34603008 97

theorem length_longString : longString.length = 34603008 := List.length_replicate

theorem longString_getD {i : Nat} (hi : i < longString.length) : longString.getD i 0 = 97 := by
  rw [length_longString] at hi
  exact List.getD_replicate _ hi

/-- A page table entry for page `x` with all its permissions. -/
def userEntry (x : Nat) : Nat := x * PGSIZE + 7

theorem userEntry_div (x : Nat) : userEntry x / PGSIZE = x := by
  simp only [userEntry, PGSIZE]
  omega

theorem userEntry_lt {x : Nat} (hx : x < 57344) : userEntry x < 256 ^ 4 := by
  simp only [userEntry, PGSIZE]
  omega

theorem userEntry_bits (x : Nat) : ¬ (userEntry x &&& PTE_P = 0 ∨ userEntry x &&& PTE_U = 0) := by
  have hset : ∀ i, userEntry x / 2 ^ i % 2 = 1 → userEntry x &&& 2 ^ i ≠ 0 := by
    intro i hi hc
    have htest : (userEntry x &&& 2 ^ i).testBit i = true := by
      rw [Nat.testBit_and, Nat.testBit_two_pow_self, Nat.testBit_eq_decide_div_mod_eq, hi]
      rfl
    rw [hc, Nat.zero_testBit] at htest
    cases htest
  rintro (hc | hc)
  · exact hset 0 (by simp only [userEntry, PGSIZE]; omega) hc
  · exact hset 2 (by simp only [userEntry, PGSIZE]; omega) hc

/-- Page 0 starts with an entry for page `x`; the string takes the pages up to `pz`. -/
def longData (p₀ pz x : Page) (p : Page) : Bytes PGSIZE :=
  if p = p₀ then Bytes.zero.setWord 0 4 (userEntry x)
  else if p = pz ∨ p = x then Bytes.zero
  else Bytes.ofFn (fun _ => 97)

/-- The caller, with the entries of its pages 0, 8449 and 8450. -/
structure LongCaller (d : Pgdir) (m : Mem) (e₀ ez ex : Pte) : Prop where
  fits : Fits m d.pages
  entry : ∀ n < 8451, ∃ e, d.entry n = some e ∧ e.ppn ∈ d.pages
  apart : ∀ n n' e e', n < 8451 → n' < 8451 → d.entry n = some e → d.entry n' = some e' → n ≠ n' →
    e.ppn ≠ e'.ppn
  first : d.entry 0 = some e₀
  nul : d.entry 8449 = some ez
  victim : d.entry 8450 = some ex

def longCaller (d : Pgdir) (m : Mem) (e₀ ez ex : Pte) : State :=
  ⟨{ m with data := longData e₀.ppn ez.ppn ex.ppn }, ⟨d, 34615296, 0, 4096, []⟩, 0, 0, false, 0⟩

theorem longCaller_byte {e₀ ez ex : Pte} {n o : Nat} {e : Pte} (he : d.entry n = some e) (ho : o < 4096) :
    (longCaller d m e₀ ez ex).mem.byte d (n * 4096 + o) =
      some ((longData e₀.ppn ez.ppn ex.ppn e.ppn).get o) := by
  have hdiv : (n * 4096 + o) / PGSIZE = n := by
    simp only [PGSIZE]
    omega
  have hmod : (n * 4096 + o) % PGSIZE = o := by
    simp only [PGSIZE]
    omega
  rw [Mem.byte, lookup_eq_entry, hdiv, hmod, he]
  rfl

namespace LongCaller

variable {e₀ ez ex : Pte} (h : LongCaller d m e₀ ez ex)
include h

theorem mem_pages {n : Nat} {e : Pte} (hn : n < 8451) (he : d.entry n = some e) :
    e.ppn ∈ d.pages := by
  obtain ⟨e', he', hp⟩ := h.entry n hn
  rw [he] at he'
  cases he'
  exact hp

theorem zero_page {n o : Nat} {e : Pte} (hn : n = 8449 ∨ n = 8450) (he : d.entry n = some e)
    (ho : o < 4096) : (longCaller d m e₀ ez ex).mem.byte d (n * 4096 + o) = some 0 := by
  have hne : e.ppn ≠ e₀.ppn := h.apart n 0 e e₀ (by omega) (by decide) he h.first (by omega)
  have hz : e.ppn = ez.ppn ∨ e.ppn = ex.ppn := by
    rcases hn with rfl | rfl
    · rw [h.nul] at he
      cases he
      exact Or.inl rfl
    · rw [h.victim] at he
      cases he
      exact Or.inr rfl
  rw [longCaller_byte he ho, longData, if_neg hne, if_pos hz, Bytes.get_zero]

theorem stringAt : StringAt (longCaller d m e₀ ez ex).mem d 4096 longString := by
  refine ⟨?_, ?_⟩
  · intro i hi
    rw [longString_getD hi]
    rw [length_longString] at hi
    obtain ⟨e, he, -⟩ := h.entry (i / 4096 + 1) (by omega)
    have hsplit : 4096 + i = (i / 4096 + 1) * 4096 + i % 4096 := by omega
    have hmod : i % 4096 < 4096 := Nat.mod_lt _ (by decide)
    have hne : ∀ n' e', n' < 8451 → d.entry n' = some e' → n' ≠ i / 4096 + 1 → e.ppn ≠ e'.ppn :=
      fun n' e' hn' he' hc => h.apart _ n' e e' (by omega) hn' he he' (Ne.symm hc)
    have h₀ := hne 0 e₀ (by decide) h.first (by omega)
    have hz := hne 8449 ez (by decide) h.nul (by omega)
    have hx := hne 8450 ex (by decide) h.victim (by omega)
    rw [hsplit, longCaller_byte he hmod, longData, if_neg h₀, if_neg (not_or.mpr ⟨hz, hx⟩),
      Bytes.get_ofFn _ hmod]
  · rw [length_longString]
    exact h.zero_page (o := 0) (Or.inl rfl) h.nul (by decide)

theorem addressZero_eq {m' : Mem}
    (hm : m'.data e₀.ppn = Bytes.zero.setWord 0 4 (userEntry ex.ppn)) :
    addressZero d m' = some (userEntry ex.ppn) := by
  have hlt : ex.ppn < 57344 := (h.fits.of_mem (h.mem_pages (by decide) h.victim)).2
  rw [addressZero, lookup_eq_entry, Nat.zero_div, h.first, Option.map_some, hm,
    Bytes.word_setWord_same _ _ (by decide), Nat.mod_eq_of_lt (userEntry_lt hlt)]

end LongCaller

theorem exists_longBuilding : ∃ d m, Building someLayout freshMem m d 34615296 ∧
    (∀ n, m.deny n = false) ∧ NPDENTRIES + 2 < m.free.length := by
  obtain ⟨r, m₁, hrun₁, hspec₁⟩ := wp_returns
    (serve_setupkvm (E := fun _ => False) someLayout freshMem freshMem_fits) (fun _ h => h)
  have hroom₁ := wp_ok (setupkvm_room (l := someLayout) (k := 1027 + 8451) (Nat.zero_le _) (fun n => rfl)
    (by rw [freshMem_length]; decide)) hrun₁
  obtain ⟨d, rfl, hroom⟩ := hroom₁
  obtain ⟨hg, hd, he⟩ := hspec₁
  have hb := building_zero hg hd he
  have hgrow := allocuvm_building (E := fun _ => False) 34615296 hb freshMem_fits
  obtain ⟨⟨d', sz'⟩, m₂, hrun₂, hspec₂⟩ := wp_returns hgrow (fun _ h => h)
  obtain ⟨hsz, hroom₂⟩ := wp_ok (allocuvm_room hroom (by decide) (by decide) (by decide)) hrun₂
  dsimp only at hsz hroom₂ hspec₂
  subst hsz
  obtain ⟨hbuild, -⟩ := hspec₂.resolve_right (fun hc => absurd hc.1 (by decide))
  refine ⟨d', m₂, hbuild, hroom₂.deny, ?_⟩
  have hpages := hroom₂.pages
  simp only [NPDENTRIES]
  omega

theorem exists_longCaller : ∃ d m e₀ ez ex, LongCaller d m e₀ ez ex ∧
    (∀ n, m.deny n = false) ∧ NPDENTRIES + 2 < m.free.length := by
  obtain ⟨d, m, hb, hdeny, hlen⟩ := exists_longBuilding
  have hfit : Fits m d.pages := hb.grow.fits freshMem_fits
  have hnodup : d.pages.Nodup := (Multiset.nodup_add.mp hfit.nodup).2.1
  have hentry : ∀ n < 8451, ∃ e, d.entry n = some e ∧ e.ppn ∈ d.pages := by
    intro n hn
    obtain ⟨e, he, hp⟩ := hb.page (a := n * 4096) (by omega)
    rw [lookup_eq_entry, PGSIZE, Nat.mul_div_cancel _ (by decide)] at he
    exact ⟨e, he, hp⟩
  obtain ⟨e₀, he₀, -⟩ := hentry 0 (by decide)
  obtain ⟨ez, hez, -⟩ := hentry 8449 (by decide)
  obtain ⟨ex, hex, -⟩ := hentry 8450 (by decide)
  refine ⟨d, m, e₀, ez, ex, ⟨hfit, hentry, ?_, he₀, hez, hex⟩, hdeny, hlen⟩
  intro n n' e e' hn hn' he he' hne hpp
  exact hne (entry_injective hnodup (by simp only [PGSIZE, KERNBASE]; omega)
    (by simp only [PGSIZE, KERNBASE]; omega) he he' hpp)

/-- The string begins in the gap, and the page that the caller's first word names is overwritten
although `exec` returns -1. -/
theorem longString_leaks : ∃ s : State, Fits s.mem s.proc.pgdir.pages ∧ s.locked = false ∧
    longString.length < KERNBASE ∧ StringAt s.mem s.proc.pgdir 4096 longString ∧
    ¬ AllOrNothing someLayout (addressZero s.proc.pgdir) (some emptyElf) [] [longString] s := by
  obtain ⟨d, m, e₀, ez, ex, h, hdeny, hlen⟩ := exists_longCaller
  have hf : Fits (longCaller d m e₀ ez ex).mem d.pages := h.fits.of_pages rfl rfl
  refine ⟨longCaller d m e₀ ez ex, hf, rfl, by rw [length_longString]; decide, h.stringAt, ?_⟩
  rintro ⟨r, s', hrun, -, hpost⟩
  obtain ⟨d', m', hload⟩ := @emptyElf_loads (longCaller d m e₀ ez ex).mem someLayout
    (hf.mono (Multiset.zero_le _)) hdeny hlen
  have hbelow : below 8192 (longString.length + 1) = 0xFDF01FFC := by
    rw [length_longString]
    decide
  have hfill := exec_fills [] [] (s := longCaller d m e₀ ez ex) (E := fun _ => True)
    (a := longString) (w := userEntry ex.ppn) (o := 0xFFC) (c := 97) hf hload
    (fun _ hm => h.addressZero_eq hm) (userEntry_bits _) (userEntry_div _)
    (h.apart 0 8450 e₀ ex (by decide) (by decide) h.first h.victim (by decide))
    (h.mem_pages (by decide) h.first) (h.mem_pages (by decide) h.victim) (if_pos rfl)
    (by rw [hbelow]; decide) (by rw [hbelow, length_longString]; decide)
    (fun i hi => longString_getD hi) (by rw [hbelow]; decide) (by decide)
  obtain ⟨rfl, hget⟩ := wp_ok hfill hrun
  rcases hpost with ⟨-, -, hsame, -⟩ | ⟨hr, -⟩
  · have hbyte := hsame (8450 * 4096 + 0xFFC) (by decide)
    have hnew : s'.mem.byte d (8450 * 4096 + 0xFFC) = some 97 := by
      rw [Mem.byte, lookup_eq_entry, show (8450 * 4096 + 0xFFC) / PGSIZE = 8450 from rfl, h.victim,
        Option.map_some]
      exact congrArg some hget
    rw [show (longCaller d m e₀ ez ex).proc.pgdir = d from rfl, hnew,
      h.zero_page (Or.inr rfl) h.victim (by decide)] at hbyte
    exact absurd hbyte (by decide)
  · exact absurd hr (by decide)

end Xv6.Exec
