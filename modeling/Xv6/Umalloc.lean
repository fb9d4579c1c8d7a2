import Xv6.Bytes
import Xv6.MachineInt
import Xv6.RingList

/-!
# The memory allocator of user programs

`malloc`, `free` and `morecore` of `umalloc.c` on the bytes of the process. Pointers and unsigned
integers have 32 bits. A header has eight bytes, the pointer first. `sbrk` is a parameter: it gets
an `int` and the state of the kernel, and returns an address or fails. A loop may run for ever, so
the functions get a number of rounds that their loops may take.
-/

namespace Xv6.Umalloc

/-- The bytes of the process. -/
abbrev Mem := Nat → UInt8

def load (m : Mem) (a : Nat) : Nat := leWord m a 4

def store (m : Mem) (a v : Nat) : Mem := fun i => if a ≤ i ∧ i < a + 4 then leByte v (i - a) else m i

/-- `p->s.ptr` -/
def ptr (m : Mem) (p : Nat) : Nat := load m p

/-- `p->s.size` -/
def size (m : Mem) (p : Nat) : Nat := load m (p + 4)

def setPtr (m : Mem) (p v : Nat) : Mem := store m p v

def setSize (m : Mem) (p v : Nat) : Mem := store m (p + 4) v

/-- `p + n` for a `Header *p` -/
def plus (p n : Nat) : Nat := (p + 8 * n) % 2 ^ 32

structure Heap (σ : Type) where
  mem : Mem
  /-- The null pointer is 0. -/
  freep : Nat
  sys : σ

/-- The loop of `free`. -/
def freeSearch (m : Mem) (bp : Nat) : Nat → Nat → Option Nat
  | 0, _ => none
  | fuel + 1, p =>
    if bp > p ∧ bp < ptr m p then some p
    else if p ≥ ptr m p ∧ (bp > p ∨ bp < ptr m p) then some p
    else freeSearch m bp fuel (ptr m p)

/-- Join `bp` to the upper neighbour, or let it point there. -/
def joinUpper (m : Mem) (bp p : Nat) : Mem :=
  if plus bp (size m bp) = ptr m p then
    let m := setSize m bp ((size m bp + size m (ptr m p)) % 2 ^ 32)
    setPtr m bp (ptr m (ptr m p))
  else setPtr m bp (ptr m p)

/-- Join `bp` to the lower neighbour `p`, or let `p` point to it. -/
def joinLower (m : Mem) (bp p : Nat) : Mem :=
  if plus p (size m p) = bp then
    let m := setSize m p ((size m p + size m bp) % 2 ^ 32)
    setPtr m p (ptr m bp)
  else setPtr m p bp

variable {σ : Type}

def free (fuel ap : Nat) (h : Heap σ) : Option (Heap σ) :=
  let bp := (ap + 2 ^ 32 - 8) % 2 ^ 32
  match freeSearch h.mem bp fuel h.freep with
  | none => none
  | some p => some { h with mem := joinLower (joinUpper h.mem bp p) bp p, freep := p }

section

variable (sbrk : Int → σ → Option Nat × σ) (base : Nat)

/-- The address is 0 if `sbrk` fails. -/
def morecore (fuel nu : Nat) (h : Heap σ) : Option (Nat × Heap σ) :=
  let nu := if nu < 4096 then 4096 else nu
  match sbrk (wrap32 (nu * 8)) h.sys with
  | (none, sys) => some (0, { h with sys := sys })
  | (some p, sys) =>
    match free fuel (plus p 1) { h with mem := setSize h.mem p nu, sys := sys } with
    | none => none
    | some h => some (h.freep, h)

/-- Take `nunits` units off the block at `p`, which is large enough. -/
def carve (nunits prevp p : Nat) (h : Heap σ) : Nat × Heap σ :=
  if size h.mem p = nunits then
    (plus p 1, { h with mem := setPtr h.mem prevp (ptr h.mem p), freep := prevp })
  else
    let m := setSize h.mem p (size h.mem p - nunits)
    let p := plus p (size m p)
    (plus p 1, { h with mem := setSize m p nunits, freep := prevp })

/-- The loop of `malloc`. -/
def mallocLoop (nunits : Nat) : Nat → Nat → Nat → Heap σ → Option (Nat × Heap σ)
  | 0, _, _, _ => none
  | fuel + 1, prevp, p, h =>
    if size h.mem p ≥ nunits then some (carve nunits prevp p h)
    else if p = h.freep then
      match morecore sbrk fuel nunits h with
      | none => none
      | some (p, h) => if p = 0 then some (0, h) else mallocLoop nunits fuel p (ptr h.mem p) h
    else mallocLoop nunits fuel p (ptr h.mem p) h

/-- `if((prevp = freep) == 0)` -/
def initHeap (h : Heap σ) : Heap σ :=
  if h.freep = 0 then { h with mem := setSize (setPtr h.mem base base) base 0, freep := base }
  else h

def units (nbytes : Nat) : Nat := (nbytes + 7) % 2 ^ 32 / 8 + 1

def malloc (fuel nbytes : Nat) (h : Heap σ) : Option (Nat × Heap σ) :=
  let h := initHeap base h
  mallocLoop sbrk (units nbytes) fuel h.freep (ptr h.mem h.freep) h

end

/-! ### Rounds

More rounds do not change a result. -/

section Rounds

variable {m : Mem} {bp p q n prevp ap fuel fuel' : Nat} {h h' : Heap σ} {r : Nat × Heap σ}
  {sbrk : Int → σ → Option Nat × σ}

theorem freeSearch_mono (hle : fuel ≤ fuel') (hrun : freeSearch m bp fuel p = some q) :
    freeSearch m bp fuel' p = some q := by
  induction fuel generalizing p fuel' with
  | zero => cases hrun
  | succ fuel ih =>
    obtain ⟨f, rfl⟩ : ∃ f, fuel' = f + 1 := ⟨fuel' - 1, by omega⟩
    rw [freeSearch] at hrun ⊢
    split_ifs at hrun ⊢
    · exact hrun
    · exact hrun
    · exact ih (by omega) hrun

theorem free_mono (hle : fuel ≤ fuel') (hrun : free fuel ap h = some h') :
    free fuel' ap h = some h' := by
  rw [free] at hrun ⊢
  cases hsearch : freeSearch h.mem ((ap + 2 ^ 32 - 8) % 2 ^ 32) fuel h.freep with
  | none => simp only [hsearch, reduceCtorEq] at hrun
  | some p =>
    simp only [hsearch, freeSearch_mono hle hsearch] at hrun ⊢
    exact hrun

theorem morecore_mono (hle : fuel ≤ fuel') (hrun : morecore sbrk fuel n h = some r) :
    morecore sbrk fuel' n h = some r := by
  unfold morecore at hrun ⊢
  dsimp only at hrun ⊢
  split at hrun
  · exact hrun
  · split at hrun
    · cases hrun
    · next hfree =>
      rw [free_mono hle hfree]
      exact hrun

theorem mallocLoop_mono (hle : fuel ≤ fuel') (hrun : mallocLoop sbrk n fuel prevp p h = some r) :
    mallocLoop sbrk n fuel' prevp p h = some r := by
  induction fuel generalizing prevp p h fuel' with
  | zero => cases hrun
  | succ fuel ih =>
    obtain ⟨f, rfl⟩ : ∃ f, fuel' = f + 1 := ⟨fuel' - 1, by omega⟩
    rw [mallocLoop] at hrun ⊢
    split_ifs at hrun ⊢
    · exact hrun
    · split at hrun
      · cases hrun
      · next hmore =>
        rw [morecore_mono (by omega) hmore]
        dsimp only
        split_ifs at hrun ⊢
        · exact hrun
        · exact ih (by omega) hrun
    · exact ih (by omega) hrun

end Rounds

/-! ### Fields of headers -/

section Fields

variable {m m' : Mem} {a b v : Nat}

theorem load_store_self (hv : v < 2 ^ 32) : load (store m a v) a = v := by
  have hbytes : ∀ i < 4, store m a v (a + i) = leByte v i := by
    intro i hi
    rw [store, if_pos ⟨Nat.le_add_right a i, by omega⟩, Nat.add_sub_cancel_left]
  rw [load, leWord_leByte hbytes]
  exact Nat.mod_eq_of_lt hv

theorem load_lt (m : Mem) (a : Nat) : load m a < 2 ^ 32 := leWord_lt m a 4

theorem load_congr (h : ∀ i, a ≤ i → i < a + 4 → m' i = m i) : load m' a = load m a :=
  leWord_congr h

theorem store_of_out {i : Nat} (h : i < a ∨ a + 4 ≤ i) : store m a v i = m i := by
  rw [store, if_neg (by omega)]

theorem load_store_of_out (h : b + 4 ≤ a ∨ a + 4 ≤ b) : load (store m a v) b = load m b :=
  load_congr (fun i h₁ h₂ => store_of_out (by omega))

/-- The bytes outside of the header at `a` are the same. -/
def SameOff (m m' : Mem) (a : Nat) : Prop := ∀ i, i < a ∨ a + 8 ≤ i → m' i = m i

theorem sameOff_setPtr : SameOff m (setPtr m a v) a := fun _ hi => store_of_out (by omega)

theorem sameOff_setSize : SameOff m (setSize m a v) a := fun _ hi => store_of_out (by omega)

theorem SameOff.trans {m'' : Mem} (h : SameOff m m' a) (h' : SameOff m' m'' a) :
    SameOff m m'' a := fun i hi => (h' i hi).trans (h i hi)

/-- Two headers do not overlap. -/
def HdrApart (a b : Nat) : Prop := a + 8 ≤ b ∨ b + 8 ≤ a

theorem SameOff.ptr (h : SameOff m m' a) (hab : HdrApart a b) : ptr m' b = ptr m b := by
  unfold HdrApart at hab
  exact load_congr (fun i h₁ h₂ => h i (by omega))

theorem SameOff.size (h : SameOff m m' a) (hab : HdrApart a b) : size m' b = size m b := by
  unfold HdrApart at hab
  exact load_congr (fun i h₁ h₂ => h i (by omega))

theorem ptr_setPtr (hv : v < 2 ^ 32) : ptr (setPtr m a v) a = v := load_store_self hv

theorem size_setSize (hv : v < 2 ^ 32) : size (setSize m a v) a = v := load_store_self hv

theorem ptr_setSize : ptr (setSize m a v) a = ptr m a := load_store_of_out (by omega)

theorem size_setPtr : size (setPtr m a v) a = size m a := load_store_of_out (by omega)

end Fields

end Xv6.Umalloc
