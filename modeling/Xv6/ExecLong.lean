import Xv6.ExecRun

/-!
# Runs of exec that get to the arguments

With enough memory a file without segments is loaded. What `exec` does then depends on the arguments
only: it succeeds if they fit on the stack, and a string that begins in the gap is written to the page
that the word at address zero names.
-/

namespace Xv6.Exec

open Vm

variable {l : Layout} {null : Null} {ip : Inode} {path : List UInt8} {argv : List (List UInt8)}
  {s : State} {d : Pgdir} {sz entry : Nat} {m₀ m : Mem} {E : Fault → Prop}

/-- The address space of a process that `exec` has just started. -/
structure Image (d : Pgdir) (sz : Nat) : Prop where
  size : sz < KERNBASE
  mapped : ∀ n, n * PGSIZE < KERNBASE → ((d.entry n).isSome ↔ n * PGSIZE < sz)
  once : ∀ n n' e e', n * PGSIZE < KERNBASE → n' * PGSIZE < KERNBASE → d.entry n = some e →
    d.entry n' = some e' → e.ppn = e'.ppn → n = n'
  guard : ∀ n e, n * PGSIZE < KERNBASE → d.entry n = some e →
    (e.perm &&& PTE_U = 0 ↔ n * PGSIZE = sz - 2 * PGSIZE)

theorem Loads.stacked (h : Loads l ip m₀ entry d sz m) (hf : Fits m₀ 0) : Stacked l m₀ m d sz := by
  obtain ⟨d₁, sz₁, m₁, hload, hstack⟩ := h
  have hb := wp_ok (loadFile_spec (E := fun _ => True) l ip hf) hload
  have hst := wp_ok (allocStack_spec (E := fun _ => True) hb hf) hstack
  exact hst

theorem wp_exec_loads {Q : Int → State → Prop} (hload : Loads l ip s.mem entry d sz m)
    (h : wp (pushArgs null d sz argv) m (fun r m₃ =>
      ∀ s₃ : State, s₃.mem = m₃ → s₃.proc = s.proc → wp (match r with
        | none => bad (some d) false
        | some sp => commit d sz entry sp path) s₃ Q E) E) :
    wp (exec l null (some ip) path argv) s Q E := by
  obtain ⟨d₁, sz₁, m₁, hfile, hstack⟩ := hload
  unfold exec
  rw [wp_bind, begin_op, wp_modify, wp_bind, lockInode, wp_modify, wp_bind, wp_onMem]
  refine wp_of_ok hfile ?_
  dsimp only
  rw [wp_bind, iunlockput, wp_modify, wp_bind, end_op, wp_modify]
  unfold execStack
  rw [wp_bind, wp_onMem]
  refine wp_of_ok hstack ?_
  dsimp only
  rw [wp_bind, wp_onMem]
  refine wp_mono h ?_
  intro r m₃ hres
  cases r with
  | none => exact hres _ rfl rfl
  | some sp => exact hres _ rfl rfl

theorem not_meetsGap {argc sp : Nat} (hsz : sz < KERNBASE) (hlo : sz - PGSIZE ≤ sp) (hhi : sp ≤ sz)
    (hargv : ∀ a ∈ argv, a.length < sz) : ¬ MeetsGap sz argc sp argv := by
  simp only [KERNBASE, PGSIZE] at hsz hlo
  induction argv generalizing argc sp with
  | nil => exact id
  | cons a argv ih =>
    have ha := hargv a List.mem_cons_self
    rintro ⟨-, hgap | ⟨hin, hm⟩⟩
    · simp only [InGap, below, KERNBASE, PHYSTOP, DEVSPACE] at hgap
      omega
    · exact ih hin.1 (by have := hin.2; omega) (fun a' ha' => hargv a' (List.mem_cons_of_mem _ ha')) hm

/-- Arguments that fit into the stack page do not make `exec` fail. -/
theorem exec_fit (hf : Fits s.mem s.proc.pgdir.pages) (hload : Loads l ip s.mem entry d sz m)
    (hargv : ∀ a ∈ argv, a.length < sz) (hfit : Fit argv) :
    wp (exec l null (some ip) path argv) s (fun r _ => r = 0) E := by
  have hst := hload.stacked (hf.mono (Multiset.zero_le _))
  obtain ⟨ps, hps⟩ := hst.exists_stackPage
  have hno : ¬ MeetsGap sz 0 sz argv := not_meetsGap hst.size (Nat.sub_le _ _) le_rfl hargv
  refine wp_exec_loads hload (wp_conseq (pushArgs_spec hst hps
    (fun a ha => (hargv a ha).trans hst.size)) ?_ (fun e he => absurd he.1 hno))
  rintro (_ | esp) m₃ hpush
  · exact absurd hfit hpush.1
  · obtain ⟨b, sp, ptrs, -, -, -, hm₃⟩ := hpush
    have hgrow : Grow s.mem s.proc.pgdir.pages m (d.pages + s.proc.pgdir.pages) :=
      (hst.grow.frame s.proc.pgdir.pages).cast (zero_add _).symm rfl
    have hfits := (hgrow.fits hf).mono (Multiset.le_add_left s.proc.pgdir.pages d.pages)
    have hfits₃ : Fits m₃ s.proc.pgdir.pages := hfits.of_pages (by rw [hm₃]; rfl) (by rw [hm₃]; rfl)
    intro s₃ hm hp
    rw [← hm, ← hp] at hfits₃
    exact wp_mono (commit_spec hfits₃) (fun r s' hr => hr.1)

theorem exec_fills (path : List UInt8) (argv : List (List UInt8))
    (hf : Fits s.mem s.proc.pgdir.pages) (hload : Loads l ip s.mem entry d sz m)
    {a : List UInt8} {p₀ x : Page} {page : Bytes PGSIZE} {w o : Nat} {c : UInt8}
    (hnull : ∀ m : Mem, m.data p₀ = page → null m = some w)
    (hw : ¬ (w &&& PTE_P = 0 ∨ w &&& PTE_U = 0)) (hx : w / PGSIZE = x) (hne : p₀ ≠ x)
    (hp₀ : p₀ ∈ s.proc.pgdir.pages) (hxp : x ∈ s.proc.pgdir.pages) (hpage : s.mem.data p₀ = page)
    (hgap : InGap (below sz (a.length + 1)))
    (hend : DEVSPACE ≤ below sz (a.length + 1) + a.length) (ha : ∀ i < a.length, a.getD i 0 = c)
    (ho : below sz (a.length + 1) % PGSIZE ≤ o) (ho' : o < PGSIZE) :
    wp (exec l null (some ip) path (a :: argv)) s
      (fun r s' => r = -1 ∧ (s'.mem.data x).get o = c) E := by
  have hst := hload.stacked (hf.mono (Multiset.zero_le _))
  have hgrow : Grow s.mem s.proc.pgdir.pages m (d.pages + s.proc.pgdir.pages) :=
    (hst.grow.frame s.proc.pgdir.pages).cast (zero_add _).symm rfl
  have hdata : m.data p₀ = page := (hst.grow.data p₀ (hf.not_free hp₀)).trans hpage
  have hlen : (a ++ [0]).length = a.length + 1 := List.length_append
  have hbuf : ∀ i, below sz (a.length + 1) + i < DEVSPACE → (a ++ [0]).getD i 0 = c := by
    intro i hi
    have hia : i < a.length := by omega
    rw [List.getD_append _ _ _ _ hia]
    exact ha i hia
  refine wp_exec_loads hload ?_
  unfold pushArgs
  rw [wp_bind, pushStrings, if_neg (by decide)]
  refine wp_seq (copyout_fills hst hgap (by rw [hlen]; omega) hnull hw hx hne hdata hbuf ho ho') ?_
  rintro r m₃ ⟨rfl, hfree, hkend, hget⟩
  rw [if_pos (by decide), wp_pure]
  dsimp only
  rw [wp_pure]
  rintro s₃ rfl -
  have hfit : Fits s₃.mem (d.pages + s.proc.pgdir.pages) :=
    (hgrow.fits hf).of_pages hkend (by rw [hfree])
  refine wp_mono (bad_spec (some d) false (hfit.mono (Multiset.le_add_right _ _))) ?_
  rintro r s' ⟨hr, -, hs, -⟩
  refine ⟨hr, ?_⟩
  have hs' : Shrink s₃.mem (d.pages + s.proc.pgdir.pages) s'.mem s.proc.pgdir.pages :=
    (hs.frame s.proc.pgdir.pages).cast rfl (zero_add _).symm
  rw [hs'.data x ((hs'.fits hfit).not_free hxp)]
  exact hget

/-! ### A file without segments -/

/-- The header of a file that has no program headers. -/
def emptyElf : Inode := Inode.file ([0x7f, 0x45, 0x4c, 0x46] ++ List.replicate 48 0)

theorem emptyElf_elfhdr : emptyElf.elfhdr = some ⟨ELF_MAGIC, 0, 0, 0⟩ := rfl

theorem loadFile_emptyElf {k : Nat} (hdeny : ∀ n, m.deny n = false)
    (hlen : NPDENTRIES + k < m.free.length) :
    wp (loadFile l emptyElf) m (fun r m' => ∃ d, r = .ok (d, 0, 0) ∧ Room 0 m' d k)
      (fun _ => True) := by
  unfold loadFile
  rw [emptyElf_elfhdr]
  dsimp only
  rw [if_neg (not_not.mpr rfl)]
  refine wp_seq (setupkvm_room (Nat.zero_le _) hdeny hlen) ?_
  rintro r m' ⟨d, rfl, hroom⟩
  exact ⟨d, rfl, hroom⟩

theorem allocStack_room (h : Room 0 m d 2) :
    wp (allocStack d 0) m (fun r _ => r.2 = some 8192) (fun _ => True) := by
  have hround : PGROUNDUP 0 = 0 := by decide
  have htop : (0 + 2 * PGSIZE) % 2 ^ 32 = 8192 := by decide
  unfold allocStack
  dsimp only
  rw [hround, htop, wp_bind]
  have halloc := @allocuvm_room m d 0 0 8192 2 h (by decide) (by decide) (by decide)
  refine wp_mono halloc ?_
  rintro ⟨d', sz'⟩ m' ⟨hsz, -⟩
  dsimp only at hsz ⊢
  subst hsz
  rw [if_neg (by decide), wp_bind]
  unfold clearpteu
  split
  · trivial
  · exact rfl

theorem emptyElf_loads (l : Layout) (hf : Fits m 0) (hdeny : ∀ n, m.deny n = false)
    (hlen : NPDENTRIES + 2 < m.free.length) : ∃ d m', Loads l emptyElf m 0 d 8192 m' := by
  obtain ⟨r, m₁, hload, hspec⟩ := wp_returns (loadFile_spec (E := fun _ => False) l emptyElf hf)
    (fun _ h => h)
  obtain ⟨d, rfl, hroom⟩ := wp_ok (loadFile_emptyElf hdeny hlen) hload
  obtain ⟨⟨d', sz'⟩, m₂, hstack, -⟩ := wp_returns
    (allocStack_spec (E := fun _ => False) hspec hf) (fun _ h => h)
  have hsz := wp_ok (allocStack_room hroom) hstack
  dsimp only at hsz
  subst hsz
  exact ⟨d', m₂, d, 0, m₁, hload, hstack⟩

end Xv6.Exec
