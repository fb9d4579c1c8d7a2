import Xv6.PageSpecs

/-!
# Calls that allocate and free pages

What `main`, `fork`, `exec`, `growproc`, `wait`, `pipealloc` and `pipeclose` do with pages, each with
the pages that it is given and those that it gives back. What a call reads from the disk or from user
memory is an argument here, and so is whether it finds a free `struct file`.
-/

namespace Xv6.Vm

open Alloc

/-- `kvmalloc`; without a page table `switchkvm` loads a null pointer. -/
def kvmalloc (l : Layout) : Routine Page Pgdir := do
  match ← setupkvm l with
  | none => .panic "trap"
  | some d => .ret d

/-- `userinit` up to `inituvm`. `allocproc` returns a null pointer if there is no page for the kernel
stack, and storing the page directory then faults. -/
def userinit (l : Layout) : Routine Page (Page × Pgdir) := do
  match ← kalloc with
  | none => do
    let _ ← setupkvm l
    .panic "trap"
  | some kstack =>
    match ← setupkvm l with
    | none => .panic "userinit: out of memory?"
    | some d => .ret (kstack, d)

/-- `fork` of a process with directory `pgdir`, from the allocation of the kernel stack in
`allocproc` on. -/
def fork (l : Layout) (pgdir : Pgdir) (sz : Nat) : Routine Page (Option (Page × Pgdir)) := do
  match ← kalloc with
  | none => .ret none
  | some kstack =>
    match ← copyuvm l pgdir sz with
    | none => do
      kfree kstack
      .ret none
    | some d => .ret (some (kstack, d))

/-- `growproc` of a process with directory `d` and size `sz`: what they are then, and the result. -/
def growproc (d : Pgdir) (sz : Nat) (n : Int) : Routine Page (Pgdir × Nat × Int) := do
  -- `sz + n` is computed as a `uint`
  let newsz := ((sz + n) % 2 ^ 32).toNat
  if n > 0 then
    let (d, r) ← allocuvm d sz newsz
    if r = 0 then .ret (d, sz, -1) else .ret (d, r, 0)
  else if n < 0 then
    let (d, r) ← deallocuvm d sz newsz
    if r = 0 then .ret (d, sz, -1) else .ret (d, r, 0)
  else .ret (d, sz, 0)

/-- A program header, and whether `loaduvm` can read the segment. -/
structure Proghdr where
  load : Bool
  vaddr : Nat
  filesz : Nat
  memsz : Nat
  readable : Bool

/-- What `exec` finds in the file: whether the file starts with an ELF header, and the program
headers up to one that cannot be read. `args` says whether the arguments fit on the stack. -/
structure Image where
  header : Bool
  ph : List (Option Proghdr)
  args : Bool

/-- The loop of `exec` over the program headers; `none` stands for `goto bad`. -/
def loadSegments : List (Option Proghdr) → Pgdir → Nat → Routine Page (Pgdir × Option Nat)
  | [], d, sz => .ret (d, some sz)
  | none :: _, d, _ => .ret (d, none)
  | some ph :: rest, d, sz =>
    if ¬ ph.load then loadSegments rest d sz
    else if ph.memsz < ph.filesz then .ret (d, none)
    else if (ph.vaddr + ph.memsz) % 2 ^ 32 < ph.vaddr then .ret (d, none)
    else do
      let (d, sz) ← allocuvm d sz ((ph.vaddr + ph.memsz) % 2 ^ 32)
      if sz = 0 ∨ ph.vaddr % PGSIZE ≠ 0 ∨ ¬ ph.readable then .ret (d, none)
      else loadSegments rest d sz

/-- The user stack below a page that is not accessible. -/
def allocStack (d : Pgdir) (sz : Nat) : Routine Page (Pgdir × Option Nat) := do
  let (d, sz) ← allocuvm d sz ((sz + 2 * PGSIZE) % 2 ^ 32)
  if sz = 0 then .ret (d, none)
  else do
    let d ← clearpteu d (sz - 2 * PGSIZE)
    .ret (d, some sz)

/-- `exec` up to the commit. -/
def exec (l : Layout) (image : Image) : Routine Page (Option (Pgdir × Nat)) :=
  if ¬ image.header then .ret none
  else do
    match ← setupkvm l with
    | none => .ret none
    | some d =>
      let (d, loaded) ← loadSegments image.ph d 0
      match loaded with
      | none => do
        freevm d
        .ret none
      | some sz =>
        let (d, stack) ← allocStack d (PGROUNDUP sz)
        match stack with
        | some sz =>
          if image.args then .ret (some (d, sz))
          else do
            freevm d
            .ret none
        | none => do
          freevm d
          .ret none

/-- What `wait` frees of a process. -/
def reap (kstack : Page) (d : Pgdir) : Routine Page Unit := do
  kfree kstack
  freevm d

/-- `pipealloc`; `f0` and `f1` say whether there is a free `struct file`. -/
def pipealloc (f0 f1 : Bool) : Routine Page (Option Page) :=
  if f0 ∧ f1 then kalloc else .ret none

variable {F : Prop}

theorem kvmalloc_spec (l : Layout) : Alloc.wp F 0 (kvmalloc l) (fun d own => own = d.pages) := by
  refine Alloc.wp_seq (setupkvm_spec l) ?_
  rintro (_ | d) own rfl
  · exact wp_panic _
  · exact wp_ret rfl

theorem userinit_spec (l : Layout) :
    Alloc.wp F 0 (userinit l) (fun r own => own = {r.1} + r.2.pages) := by
  refine wp_allocate (fun _ => ?_) ?_
  · refine Alloc.wp_seq (setupkvm_spec l) ?_
    intro _ _ _
    exact wp_panic _
  · intro kstack
    refine wp_call (setupkvm_spec l) {kstack} rfl ?_
    rintro (_ | d) own rfl
    · exact wp_panic _
    · exact wp_ret (add_comm _ _)

variable {sz : Nat}

theorem fork_spec (l : Layout) (pgdir : Pgdir) (hsz : sz ≤ KERNBASE) :
    Alloc.wp F 0 (fork l pgdir sz) (fun r own => own = r.elim 0 (fun r => {r.1} + r.2.pages)) := by
  refine wp_allocate (fun _ => wp_ret rfl) ?_
  intro kstack
  refine wp_call (copyuvm_spec l pgdir hsz) {kstack} rfl ?_
  rintro (_ | d) own rfl
  · exact wp_release rfl (wp_ret rfl)
  · exact wp_ret (add_comm _ _)

theorem growproc_spec (d : Pgdir) (n : Int) (hsz : sz ≤ KERNBASE) :
    Alloc.wp F d.pages (growproc d sz n) (fun r own => own = r.1.pages ∧ r.2.1 ≤ KERNBASE) := by
  have hresult : ∀ {d' : Pgdir} {r : Nat}, r ≤ KERNBASE → Alloc.wp F d'.pages
      (if r = 0 then .ret (d', sz, -1) else .ret (d', r, 0) : Routine Page (Pgdir × Nat × Int))
      (fun r own => own = r.1.pages ∧ r.2.1 ≤ KERNBASE) := by
    intro d' r hr
    split_ifs
    · exact wp_ret ⟨rfl, hsz⟩
    · exact wp_ret ⟨rfl, hr⟩
  unfold growproc
  split_ifs
  · refine Alloc.wp_seq (allocuvm_spec _ d hsz) ?_
    rintro ⟨d', r⟩ own ⟨rfl, hr⟩
    exact hresult hr
  · refine Alloc.wp_seq (deallocuvm_spec d hsz) ?_
    rintro ⟨d', r⟩ own ⟨rfl, hr, -⟩
    exact hresult hr
  · exact wp_ret ⟨rfl, hsz⟩

theorem loadSegments_spec (ph : List (Option Proghdr)) (d : Pgdir) (hsz : sz ≤ KERNBASE) :
    Alloc.wp F d.pages (loadSegments ph d sz)
      (fun r own => own = r.1.pages ∧ ∀ sz, r.2 = some sz → sz ≤ KERNBASE) := by
  induction ph generalizing d sz with
  | nil => exact wp_ret ⟨rfl, by rintro _ ⟨⟩; exact hsz⟩
  | cons o rest ih =>
    cases o with
    | none => exact wp_ret ⟨rfl, by rintro _ ⟨⟩⟩
    | some ph =>
      unfold loadSegments
      split_ifs
      · exact wp_ret ⟨rfl, by rintro _ ⟨⟩⟩
      · exact wp_ret ⟨rfl, by rintro _ ⟨⟩⟩
      · refine Alloc.wp_seq (allocuvm_spec _ d hsz) ?_
        rintro ⟨d', sz'⟩ own ⟨rfl, hsz'⟩
        dsimp only
        split_ifs
        · exact wp_ret ⟨rfl, by rintro _ ⟨⟩⟩
        · exact ih d' hsz'
      · exact ih d hsz

theorem PGROUNDUP_le (hsz : sz ≤ KERNBASE) : PGROUNDUP sz ≤ KERNBASE := by
  simp only [KERNBASE] at hsz ⊢
  rw [PGROUNDUP_eq (by simp only [PGSIZE]; omega)]
  omega

theorem allocStack_spec (d : Pgdir) (hsz : sz ≤ KERNBASE) :
    Alloc.wp F d.pages (allocStack d sz)
      (fun r own => own = r.1.pages ∧ ∀ sz, r.2 = some sz → sz ≤ KERNBASE) := by
  refine Alloc.wp_seq (allocuvm_spec _ d hsz) ?_
  rintro ⟨d', sz'⟩ own ⟨rfl, hsz'⟩
  dsimp only
  split_ifs
  · exact wp_ret ⟨rfl, by rintro _ ⟨⟩⟩
  · refine Alloc.wp_seq (clearpteu_spec d' _) ?_
    rintro d₂ own rfl
    exact wp_ret ⟨rfl, by rintro _ ⟨⟩; exact hsz'⟩

theorem exec_spec (l : Layout) (image : Image) :
    Alloc.wp F 0 (exec l image) (fun r own => own = r.elim 0 (fun r => r.1.pages) ∧
      ∀ d sz, r = some (d, sz) → sz ≤ KERNBASE) := by
  -- the clean-up at `bad`
  have hbad : ∀ d : Pgdir, Alloc.wp F d.pages (do freevm d; .ret none)
      (fun (r : Option (Pgdir × Nat)) own => own = r.elim 0 (fun r => r.1.pages) ∧
        ∀ d sz, r = some (d, sz) → sz ≤ KERNBASE) := by
    intro d
    refine Alloc.wp_seq (freevm_spec d) ?_
    rintro _ own rfl
    exact wp_ret ⟨rfl, by rintro _ _ ⟨⟩⟩
  unfold exec
  by_cases hheader : ¬ image.header
  · rw [if_pos hheader]
    exact wp_ret ⟨rfl, by rintro _ _ ⟨⟩⟩
  rw [if_neg hheader]
  refine Alloc.wp_seq (setupkvm_spec l) ?_
  rintro (_ | d) own rfl
  · exact wp_ret ⟨rfl, by rintro _ _ ⟨⟩⟩
  refine Alloc.wp_seq (loadSegments_spec image.ph d (Nat.zero_le _)) ?_
  rintro ⟨d, _ | sz⟩ own ⟨rfl, hsz⟩
  · exact hbad d
  refine Alloc.wp_seq (allocStack_spec d (PGROUNDUP_le (hsz sz rfl))) ?_
  rintro ⟨d, _ | sz'⟩ own ⟨rfl, hsz'⟩
  · exact hbad d
  dsimp only
  split_ifs
  · exact wp_ret ⟨rfl, by rintro _ _ ⟨⟩; exact hsz' sz' rfl⟩
  · exact hbad d

theorem reap_spec (kstack : Page) (d : Pgdir) :
    Alloc.wp F ({kstack} + d.pages) (reap kstack d) (fun _ own => own = 0) :=
  wp_release (add_comm _ _) (freevm_spec d)

theorem pipealloc_spec (f0 f1 : Bool) :
    Alloc.wp F 0 (pipealloc f0 f1) (fun r own => own = r.elim 0 (fun p => {p})) := by
  unfold pipealloc
  split_ifs
  · exact wp_allocate (fun _ => wp_ret rfl) (fun p => wp_ret (zero_add _))
  · exact wp_ret rfl

end Xv6.Vm
