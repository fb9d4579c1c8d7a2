import Xv6.FsNamex

/-!
# Effects of calls on files

What calls can do to the files, as a relation between the files before and after. `Act` records
whether an entry was added to a directory or removed from one. An entry that is written replaces
one entry of its directory and leaves the others alone. Every effect keeps directories sane.
-/

namespace Xv6.Fs

open Function

open Prog

variable {f g : File} {m e inum : Nat} {name : Name}

/-! ### Entries after a write -/

theorem File.entry_congr (h : ∀ i < 16, g.bytes (16 * m + i) = f.bytes (16 * m + i)) :
    g.entry m = f.entry m := by
  rw [File.entry, File.entry]
  congr 1
  apply List.map_congr_left
  intro i hi
  exact h i (List.mem_range.mp hi)

theorem File.write_entry_ne (src : Nat → UInt8) (hm : m ≠ e) :
    (f.write (16 * e) 16 src).entry m = f.entry m := by
  apply File.entry_congr
  intro i hi
  simp only [File.write, Fs.patch]
  rw [if_neg (by omega)]

theorem File.inumAt_setEntry_self :
    (f.setEntry e inum name).inumAt e = inum % 2 ^ 16 ∧
      (f.setEntry e inum name).keyAt e = key (cstr name) := by
  apply File.entry_of_bytes
  intro i hi
  simp only [File.setEntry, File.write, Fs.patch]
  rw [if_pos (by omega), Nat.add_sub_cancel_left]

theorem File.inumAt_setEntry_ne (hm : m ≠ e) : (f.setEntry e inum name).inumAt m = f.inumAt m := by
  rw [File.inumAt, File.setEntry, File.write_entry_ne _ hm, File.inumAt]

theorem File.keyAt_setEntry_ne (hm : m ≠ e) : (f.setEntry e inum name).keyAt m = f.keyAt m := by
  rw [File.keyAt, File.setEntry, File.write_entry_ne _ hm, File.keyAt]

theorem File.setEntry_entries (he : e ≤ f.size / 16) (hw : f.size % 16 = 0) :
    (f.setEntry e inum name).size / 16 = max (f.size / 16) (e + 1) ∧
      (f.setEntry e inum name).size % 16 = 0 := by
  simp only [File.setEntry, File.write]
  rw [if_neg (by decide)]
  omega

/-- The directory with entry `m` cleared. -/
def File.clearEntry (f : File) (m : Nat) : File := f.write (16 * m) 16 (fun _ => 0)

theorem File.inumAt_clearEntry_self : (f.clearEntry m).inumAt m = 0 := by
  have hnull : ∀ i < 16, direntBytes 0 [] i = 0 := by decide
  have hzero : (f.clearEntry m).inumAt m = 0 % 2 ^ 16 ∧
      (f.clearEntry m).keyAt m = key (cstr []) := by
    apply File.entry_of_bytes
    intro i hi
    simp only [File.clearEntry, File.write, Fs.patch]
    rw [if_pos (by omega), hnull i hi]
  exact hzero.1

theorem File.clearEntry_entry_ne {l : Nat} (hl : l ≠ m) : (f.clearEntry m).entry l = f.entry l :=
  File.write_entry_ne _ hl

theorem File.clearEntry_size (hm : m < f.size / 16) : (f.clearEntry m).size = f.size := by
  simp only [File.clearEntry, File.write]
  rw [if_neg (by decide)]
  omega

/-! ### Effects -/

inductive Act
  | none
  /-- An entry was added to directory `dp`. -/
  | add (dp : Nat)
  /-- Entry `m` of directory `dp` was removed. -/
  | remove (dp m : Nat)

/-- `dirlink` of a new name. -/
def addEntry (F : Nat → File) (dp i : Nat) (name : Name) : Nat → File :=
  update F dp ((F dp).setEntry (F dp).emptySlot i name)

def addLink (F : Nat → File) (i : Nat) : Nat → File :=
  update F i ((F i).setNlink (((F i).nlink + 1) % 2 ^ 16))

def dropLink (F : Nat → File) (i : Nat) : Nat → File :=
  update F i ((F i).setNlink (((F i).nlink + (2 ^ 16 - 1)) % 2 ^ 16))

/-- A directory with the entries `.` and `..` only. -/
def newDir (i dp : Nat) : File := ((File.create T_DIR 0 0).setEntry 0 i dot).setEntry 1 dp dotdot

/-- The directory `i` is made in `dp` under `name`. -/
def makeDir (F : Nat → File) (dp i : Nat) (name : Name) : Nat → File :=
  addEntry (addLink (update F i (newDir i dp)) dp) dp i name

/-- Entry `m` of `dp` is cleared; if it named a directory, the link of its `..` goes too. -/
def clearName (F : Nat → File) (dp m i : Nat) : Nat → File :=
  let F₁ := update F dp ((F dp).clearEntry m)
  if (F i).type = T_DIR then dropLink F₁ dp else F₁

/-- Only `.` and `..` are in use. -/
def File.EmptyDir (f : File) : Prop := ∀ m, 2 ≤ m → m < f.size / 16 → f.inumAt m = 0

/-- What one call can do to the files `F`, up to the inodes that it frees. -/
inductive Effect (N : Nat) (F : Nat → File) : Act → (Nat → File) → Prop
  | same : Effect N F .none F
  | create {dp i type major minor : Nat} {name : Name} (h0 : type ≠ 0) (hdir : type ≠ T_DIR)
      (hdp : (F dp).type = T_DIR) (hlook : (F dp).lookup (key (cstr name)) = none)
      (hi : 0 < i ∧ i < N) (hfree : (F i).type = 0) :
      Effect N F (.add dp)
        (addEntry (update F i (File.create type major minor)) dp i name)
  | mkdir {dp i : Nat} {name : Name} (hdp : (F dp).type = T_DIR ∧ dp < N)
      (hlook : (F dp).lookup (key (cstr name)) = none) (hi : 0 < i ∧ i < N)
      (hfree : (F i).type = 0) : Effect N F (.add dp) (makeDir F dp i name)
  | link {dp i : Nat} {name : Name} (h0 : (F i).type ≠ 0) (hdir : (F i).type ≠ T_DIR)
      (hi : 0 < i ∧ i < N) (hdp : (F dp).type = T_DIR)
      (hlook : (F dp).lookup (key (cstr name)) = none) :
      Effect N F (.add dp) (addEntry (addLink F i) dp i name)
  | unlink {dp m : Nat} (hdp : (F dp).type = T_DIR) (hm : m < (F dp).size / 16)
      (hin : (F dp).inumAt m ≠ 0) (hdot : (F dp).keyAt m ≠ key (cstr dot))
      (hdotdot : (F dp).keyAt m ≠ key (cstr dotdot)) (hne : (F dp).inumAt m ≠ dp)
      (hlive : (F ((F dp).inumAt m)).type ≠ 0) (hlink : (F ((F dp).inumAt m)).nlink ≠ 0)
      (hempty : (F ((F dp).inumAt m)).type = T_DIR → (F ((F dp).inumAt m)).EmptyDir) :
      Effect N F (.remove dp m) (dropLink (clearName F dp m ((F dp).inumAt m)) ((F dp).inumAt m))

/-- Some inodes without links are freed. -/
def Released (F F' : Nat → File) : Prop :=
  ∀ i, F' i = F i ∨ (F i).nlink = 0 ∧ F' i = File.free

def Outcome (N : Nat) (F : Nat → File) (a : Act) (F' : Nat → File) : Prop :=
  ∃ F₁, Effect N F a F₁ ∧ Released F₁ F'

variable {N : Nat} {F F' F'' : Nat → File} {a : Act} {d i dp : Nat}

theorem Released.refl (F : Nat → File) : Released F F := fun _ => Or.inl rfl

theorem Released.trans (h : Released F F') (h' : Released F' F'') : Released F F'' := by
  intro i
  rcases h' i with heq | ⟨h0, hfree⟩
  · rw [heq]
    exact h i
  · rcases h i with heq | ⟨h0', -⟩
    · rw [heq] at h0
      exact Or.inr ⟨h0, hfree⟩
    · exact Or.inr ⟨h0', hfree⟩

theorem released_drop (F : Nat → File) (R : Nat → Nat) (k i : Nat) : Released F (drop F R k i) := by
  intro j
  rw [Fs.drop]
  split_ifs with hc
  · by_cases hj : j = i
    · rw [hj, update_self]
      exact Or.inr ⟨hc.2, rfl⟩
    · rw [update_of_ne hj]
      exact Or.inl rfl
  · exact Or.inl rfl

theorem Released.update (h : Released F F') {g : File} :
    Released (update F i g) (update F' i g) := by
  intro j
  by_cases hj : j = i
  · rw [hj, update_self, update_self]
    exact Or.inl rfl
  · rw [update_of_ne hj, update_of_ne hj]
    exact h j

/-! ### Directories stay sane -/

theorem SaneDir.setEntry {f : File} (h : SaneDir N d f) (hN : N ≤ 2 ^ 16) (he : e ≤ f.size / 16)
    (hi : i < N) (hself : i = d → key (cstr name) = key (cstr dot)) :
    SaneDir N d (f.setEntry e i name) := by
  obtain ⟨hsize, hwhole⟩ := @File.setEntry_entries f e i name he h.whole
  have hat : (f.setEntry e i name).inumAt e = i := by
    rw [File.inumAt_setEntry_self.1, Nat.mod_eq_of_lt (by omega)]
  refine ⟨hwhole, ?_, ?_⟩
  · intro m hm
    by_cases hme : m = e
    · rwa [hme, hat]
    · rw [File.inumAt_setEntry_ne hme]
      exact h.entry m (by omega)
  · intro hd m hm hmd
    by_cases hme : m = e
    · rw [hme, hat] at hmd
      rw [hme, File.inumAt_setEntry_self.2]
      exact Or.inl (hself hmd)
    · rw [File.inumAt_setEntry_ne hme] at hmd
      rw [File.keyAt_setEntry_ne hme]
      exact h.self hd m (by omega) hmd

theorem SaneDir.clearEntry {f : File} (h : SaneDir N d f) (hm : m < f.size / 16) :
    SaneDir N d (f.clearEntry m) := by
  have hsize := File.clearEntry_size hm
  refine ⟨by rw [hsize]; exact h.whole, ?_, ?_⟩
  · intro l hl
    rw [hsize] at hl
    by_cases hlm : l = m
    · have := h.entry m hm
      rw [hlm, File.inumAt_clearEntry_self]
      omega
    · rw [File.inumAt, File.clearEntry_entry_ne hlm]
      exact h.entry l hl
  · intro hd l hl hld
    rw [hsize] at hl
    by_cases hlm : l = m
    · rw [hlm, File.inumAt_clearEntry_self] at hld
      exact absurd hld.symm hd
    · rw [File.inumAt, File.clearEntry_entry_ne hlm] at hld
      rw [File.keyAt, File.clearEntry_entry_ne hlm]
      exact h.self hd l hl hld

theorem SaneDir.setNlink {f : File} (h : SaneDir N d f) (n : Nat) : SaneDir N d (f.setNlink n) :=
  ⟨h.whole, h.entry, h.self⟩

theorem SaneDir.newDir (hN : N ≤ 2 ^ 16) (hi : i < N) (hdp : dp < N) (hne : dp ≠ i) :
    SaneDir N i (newDir i dp) := by
  have hnew : SaneDir N i (File.create T_DIR 0 0) :=
    ⟨rfl, fun m hm => absurd hm (Nat.not_lt_zero m), fun _ m hm => absurd hm (Nat.not_lt_zero m)⟩
  have hdot : SaneDir N i ((File.create T_DIR 0 0).setEntry 0 i dot) :=
    hnew.setEntry hN (Nat.zero_le _) hi (fun _ => rfl)
  have hsize : ((File.create T_DIR 0 0).setEntry 0 i dot).size = 16 := rfl
  exact hdot.setEntry hN (by rw [hsize]) hdp (fun hc => absurd hc hne)

theorem Sane.update (h : Sane N F) {g : File} (hg : g.type = T_DIR → SaneDir N i g) :
    Sane N (update F i g) := by
  intro d hd
  by_cases hdi : d = i
  · subst hdi
    rw [update_self] at hd ⊢
    exact hg hd
  · rw [update_of_ne hdi] at hd ⊢
    exact h d hd

theorem Sane.addEntry (h : Sane N F) (hN : N ≤ 2 ^ 16) (hi : i < N) (hne : i ≠ dp) :
    Sane N (addEntry F dp i name) :=
  h.update (fun hd => (h dp hd).setEntry hN (File.emptySlot_le _) hi (fun hc => absurd hc hne))

theorem Sane.setNlink (h : Sane N F) (n : Nat) : Sane N (Function.update F i ((F i).setNlink n)) :=
  h.update (fun hd => (h i hd).setNlink n)

theorem Sane.clearName (h : Sane N F) (hm : m < (F dp).size / 16) :
    Sane N (clearName F dp m i) := by
  have hclear : Sane N (Function.update F dp ((F dp).clearEntry m)) :=
    h.update (fun hd => (h dp hd).clearEntry hm)
  simp only [Fs.clearName]
  split_ifs
  · exact hclear.setNlink _
  · exact hclear

theorem Effect.sane (he : Effect N F a F') (h : Sane N F) (hN : N ≤ 2 ^ 16) : Sane N F' := by
  cases he with
  | same => exact h
  | create h0 hdir hdp hlook hi hfree =>
    refine Sane.addEntry (h.update (fun hd => absurd hd hdir)) hN hi.2 ?_
    rintro rfl
    rw [hfree] at hdp
    cases hdp
  | @mkdir dp i name hdp hlook hi hfree =>
    have hne : i ≠ dp := by
      rintro rfl
      rw [hfree] at hdp
      cases hdp.1
    have hnew : Sane N (update F i (newDir i dp)) :=
      h.update (fun _ => SaneDir.newDir hN hi.2 hdp.2 hne.symm)
    exact Sane.addEntry (hnew.setNlink _) hN hi.2 hne
  | link h0 hdir hi hdp hlook =>
    refine Sane.addEntry (h.setNlink _) hN hi.2 ?_
    rintro rfl
    exact hdir hdp
  | unlink hdp hm hin hdot hdotdot hne hlive hlink hempty => exact (h.clearName hm).setNlink _

theorem Released.sane (hf : Released F F') (h : Sane N F) : Sane N F' := by
  intro d hd
  rcases hf d with heq | ⟨-, hfree⟩
  · rw [heq] at hd ⊢
    exact h d hd
  · rw [hfree] at hd
    cases hd

theorem Outcome.sane (ho : Outcome N F a F') (h : Sane N F) (hN : N ≤ 2 ^ 16) : Sane N F' := by
  obtain ⟨F₁, he, hf⟩ := ho
  exact hf.sane (he.sane h hN)

end Xv6.Fs
