import Xv6.FsLocked

/-!
# Path resolution

`walk` is what `namex` computes, as a function of the files only. `namex` returns its result with a
new reference, drops every reference that it took on the way, and changes no file. It panics only
when at most one entry of the inode cache is free or when an entry on the way names a free inode.
-/

namespace Xv6.Fs

open Prog

/-- The directory `d` is a list of whole entries that name inodes below `N`, and only `.`, or `..`
in the root directory, names the directory itself. -/
structure SaneDir (N d : Nat) (f : File) : Prop where
  whole : f.size % 16 = 0
  entry : ∀ m < f.size / 16, f.inumAt m < N
  self : d ≠ 0 → ∀ m < f.size / 16, f.inumAt m = d →
    f.keyAt m = key (cstr dot) ∨ d = ROOTINO ∧ f.keyAt m = key (cstr dotdot)

def Sane (N : Nat) (F : Nat → File) : Prop := ∀ d, (F d).type = T_DIR → SaneDir N d (F d)

/-- Directories are lists of whole entries that name inodes below `N`. -/
def Listed (N : Nat) (F : Nat → File) : Prop := ∀ d, (F d).type = T_DIR →
  (F d).size % 16 = 0 ∧ ∀ m < (F d).size / 16, (F d).inumAt m < N

theorem Sane.listed {N : Nat} {F : Nat → File} (h : Sane N F) : Listed N F :=
  fun d hd => ⟨(h d hd).whole, (h d hd).entry⟩

/-- The inodes that a process with current directory `c` can reach. -/
inductive Reaches (F : Nat → File) (c : Nat) : Nat → Prop
  | root : Reaches F c ROOTINO
  | cwd : Reaches F c c
  | step {d m : Nat} : Reaches F c d → (F d).type = T_DIR → m < (F d).size / 16 →
      (F d).inumAt m ≠ 0 → Reaches F c ((F d).inumAt m)

/-- An entry that can be reached names a free inode. -/
def Dangling (F : Nat → File) (c : Nat) : Prop := ∃ i, Reaches F c i ∧ (F i).type = 0

def walk (F : Nat → File) (nameiparent : Bool) : Nat → List UInt8 → Nat → Option (Nat × Name)
  | 0, _, _ => none
  | fuel + 1, path, i =>
    match skipelem path with
    | none => if nameiparent then none else some (i, [])
    | some (name, path) =>
      if (F i).type ≠ T_DIR then none
      else if nameiparent ∧ path = [] then some (i, name)
      else
        match (F i).lookup (key (cstr name)) with
        | none => none
        | some m => walk F nameiparent fuel path ((F i).inumAt m)

/-- The inode that a path leads to from the directory `c`, or its parent and its last element. -/
def walkPath (F : Nat → File) (nameiparent : Bool) (path : List UInt8) (c : Nat) :
    Option (Nat × Name) :=
  walk F nameiparent (path.length + 1) path (if path.head? = some slash then ROOTINO else c)

variable {sb : Superblock} {s s' : FsState} {F : Nat → File} {R B : Nat → Nat} {L : Finset Nat}
  {k i c : Nat} {nameiparent : Bool} {path : List UInt8}

variable {name : Name} {fuel j : Nat}

theorem skipelem_length {rest : List UInt8}
    (h : skipelem path = some (name, rest)) : rest.length < path.length := by
  simp only [skipelem] at h
  split_ifs at h with hne
  simp only [Option.some.injEq, Prod.mk.injEq] at h
  obtain ⟨-, rfl⟩ := h
  obtain ⟨b, tl, htl⟩ := List.exists_cons_of_ne_nil hne
  have hb : b ≠ slash := by
    have hd := List.head?_dropWhile_not (fun x => decide (x = slash)) path
    rw [htl] at hd
    simpa using hd
  have h₁ := (List.dropWhile_sublist (fun x => decide (x = slash)) (l := path)).length_le
  rw [htl] at h₁ ⊢
  rw [List.dropWhile_cons_of_pos (by simpa using hb)]
  have h₂ := (List.dropWhile_sublist (fun x => decide (x = slash))
    (l := tl.dropWhile (fun x => decide (x ≠ slash)))).length_le
  have h₃ := (List.dropWhile_sublist (fun x => decide (x ≠ slash)) (l := tl)).length_le
  simp only [List.length_cons] at h₁
  omega

theorem lookup_some {f : File} {kk : List UInt8} {m : Nat} (h : f.lookup kk = some m) :
    m < f.size / 16 ∧ f.inumAt m ≠ 0 ∧ f.keyAt m = kk := by
  have hm := List.mem_range.mp (List.mem_of_find?_eq_some h)
  have hp := List.find?_some h
  rw [decide_eq_true_eq] at hp
  exact ⟨hm, hp⟩

/-! ### Where a walk ends -/

theorem walk_induction {P : Nat → Prop} (hstep : ∀ d m, P d → (F d).type = T_DIR →
      m < (F d).size / 16 → (F d).inumAt m ≠ 0 → P ((F d).inumAt m))
    (hi : P i) (h : walk F nameiparent fuel path i = some (j, name)) : P j := by
  induction fuel generalizing path i with
  | zero => cases h
  | succ fuel ih =>
    rw [walk] at h
    split at h
    · split_ifs at h
      cases h
      exact hi
    · split_ifs at h with hdir hlast
      · cases h
        exact hi
      · split at h
        · cases h
        · next m hlook =>
          obtain ⟨hm, h0, -⟩ := lookup_some hlook
          exact ih (hstep i m hi (not_not.mp hdir) hm h0) h

theorem walk_reaches (hi : Reaches F c i)
    (h : walk F nameiparent fuel path i = some (j, name)) : Reaches F c j :=
  walk_induction (fun _ _ => Reaches.step) hi h

theorem walk_range {N fuel j : Nat} (hs : Sane N F) (hi : 0 < i ∧ i < N)
    (h : walk F nameiparent fuel path i = some (j, name)) : 0 < j ∧ j < N :=
  walk_induction (P := fun d => 0 < d ∧ d < N)
    (fun d m _ hd hm h0 => ⟨Nat.pos_of_ne_zero h0, (hs d hd).entry m hm⟩) hi h

theorem walk_parent (h : walk F true fuel path i = some (j, name)) : (F j).type = T_DIR := by
  induction fuel generalizing path i with
  | zero => cases h
  | succ fuel ih =>
    rw [walk] at h
    split at h
    · simp at h
    · split_ifs at h with hdir hlast
      · cases h
        exact not_not.mp hdir
      · split at h
        · cases h
        · exact ih h

/-! ### `namex` -/

/-- What `namex` leaves for the walk result `w`. -/
def Resolved (sb : Superblock) (F : Nat → File) (B : Nat → Nat) (w : Option (Nat × Name))
    (r : Option (Nat × Name)) (s' : FsState) : Prop :=
  match w with
  | none => r = none ∧ Abs sb s' F B ∅
  | some (j, name) => ∃ l, r = some (l, name) ∧ Abs sb s' F (inc B l) ∅ ∧ (s'.icache l).inum = j

/-- At most one entry of the cache is not referenced. -/
def Crowded (B : Nat → Nat) : Prop := ∃ k, ∀ l < NINODE, l ≠ k → 0 < B l

theorem crowded_of_inc (h : ∀ l < NINODE, 0 < inc B k l) : Crowded B := by
  refine ⟨k, fun l hl hne => ?_⟩
  have := h l hl
  rwa [inc_of_ne hne] at this

/-- Why `namex` panics. -/
def NamexFault (F : Nat → File) (B : Nat → Nat) (c : Nat) (e : Fault) : Prop :=
  e = noCacheEntry ∧ Crowded B ∨ e = noType ∧ Dangling F c

theorem NamexFault.halts {e : Fault} (h : NamexFault F B c e) : Halts (Dangling F c) e := by
  rcases h with ⟨rfl, -⟩ | ⟨rfl, hd⟩
  · exact halts_noCacheEntry _
  · exact halts_noType hd

theorem Abs.namexLoop {fuel : Nat} (hs : Listed sb.ninodes F) (h : Abs sb s F (inc B k) ∅)
    (ha : Anchored s F B) (hi : (s.icache k).inum = i) (hr : 0 < i ∧ i < sb.ninodes)
    (hreach : Reaches F c i) (hfuel : path.length < fuel) :
    wp (namexLoop nameiparent fuel path k) s
      (fun r s' => Keep B s s' ∧ Resolved sb F B (walk F nameiparent fuel path i) r s')
      (NamexFault F B c) := by
  induction fuel generalizing s k i path with
  | zero => omega
  | succ fuel ih =>
    rw [Fs.namexLoop, walk]
    cases hskip : skipelem path with
    | none =>
      cases nameiparent with
      | true =>
        simp only [if_true, wp_bind, wp_pure]
        refine wp_mono (h.iput_temp ha (Finset.notMem_empty k)) ?_
        rintro _ s₁ ⟨h₁, hk₁⟩
        exact ⟨hk₁, rfl, h₁⟩
      | false => exact ⟨Keep.refl B s, k, rfl, h, hi⟩
    | some p =>
      obtain ⟨name, rest⟩ := p
      have hlen := skipelem_length hskip
      simp only [wp_bind]
      refine wp_conseq (h.ilock inc_pos (Finset.notMem_empty k) (by rwa [hi]))
        ?_ ?_
      · rintro _ s₁ ⟨h₁, hkeep₁⟩
        have hkB : Keep B s s₁ := hkeep₁.mono (le_inc B k)
        have hi₁ : (s₁.icache k).inum = i := by
          rw [hkeep₁ k inc_pos, hi]
        have ha₁ := ha.keep hkB
        have hkL : k ∈ insert k (∅ : Finset Nat) := Finset.mem_insert_self k ∅
        have herase : (insert k (∅ : Finset Nat)).erase k = ∅ := by simp
        rw [wp_getInode, h₁.type_eq hkL, hi₁]
        by_cases hdir : (F i).type ≠ T_DIR
        · rw [if_pos hdir, if_pos hdir]
          refine wp_seq (h₁.iunlockput_temp ha₁ hkL) ?_
          rintro _ s₂ ⟨h₂, hk₂⟩
          rw [herase] at h₂
          exact ⟨hkB.trans hk₂, rfl, h₂⟩
        · have hd : (F i).IsDir := ⟨not_not.mp hdir, (hs i (not_not.mp hdir)).1⟩
          rw [if_neg hdir, if_neg hdir]
          by_cases hlast : nameiparent = true ∧ rest = []
          · rw [if_pos hlast, if_pos hlast]
            refine wp_seq (h₁.iunlock hkL) ?_
            rintro _ s₂ ⟨h₂, hk₂⟩
            rw [herase] at h₂
            refine ⟨hkB.trans (hk₂.mono (le_inc B k)), k, rfl, h₂, ?_⟩
            rw [hk₂ k inc_pos, hi₁]
          · rw [if_neg hlast, if_neg hlast]
            refine wp_chain (h₁.dirlookup_cases hkL hi₁ hd name) ?_
              (fun e he => .inl ⟨he.1, crowded_of_inc he.2⟩)
            intro r s₂ hr₂
            cases hlook : (F i).lookup (key (cstr name)) with
            | none =>
              rw [hlook] at hr₂
              obtain ⟨rfl, rfl⟩ := hr₂
              simp only [wp_bind, wp_pure]
              refine wp_mono (h₁.iunlockput_temp ha₁ hkL) ?_
              rintro _ s₃ ⟨h₃, hk₃⟩
              rw [herase] at h₃
              exact ⟨hkB.trans hk₃, rfl, h₃⟩
            | some m =>
              rw [hlook] at hr₂
              obtain ⟨l, rfl, h₂, hk₂, hl₂⟩ := hr₂
              obtain ⟨hm, h0, -⟩ := lookup_some hlook
              rw [inc_comm] at h₂
              have hkB₂ : Keep B s₁ s₂ := hk₂.mono (le_inc B k)
              simp only [wp_bind]
              refine wp_mono (h₂.iunlockput_temp
                ((ha₁.keep hkB₂).mono (le_inc B l)) hkL) ?_
              rintro _ s₃ ⟨h₃, hk₃⟩
              rw [herase] at h₃
              have hkB₃ : Keep B s₂ s₃ := hk₃.mono (le_inc B l)
              have hall := hkB.trans (hkB₂.trans hkB₃)
              refine wp_mono (ih h₃ (ha.keep hall) ?_
                ⟨Nat.pos_of_ne_zero h0, (hs i hd.type).2 m hm⟩
                (hreach.step hd.type hm h0) (by omega)) ?_
              · rw [hk₃ l inc_pos, hl₂]
              · rintro r s₄ ⟨hk₄, hres⟩
                exact ⟨hall.trans hk₄, hres⟩
      · rintro e ⟨rfl, hfree⟩
        rw [hi] at hfree
        exact .inr ⟨rfl, i, hreach, hfree⟩

theorem Abs.namex_cases {cwd : Nat} (hs : Listed sb.ninodes F) (h : Abs sb s F B ∅) (hc : 0 < B cwd)
    (hi : (s.icache cwd).inum = c) (hr : 0 < c ∧ c < sb.ninodes) (hroot : ROOTINO < sb.ninodes)
    (path : List UInt8) (nameiparent : Bool) :
    wp (namex path nameiparent cwd) s
      (fun r s' => Keep B s s' ∧ Resolved sb F B (walkPath F nameiparent path c) r s')
      (NamexFault F B c) := by
  rw [Fs.namex, walkPath]
  have hend : ∀ k s₁ i, Abs sb s₁ F (inc B k) ∅ → Keep B s s₁ → (s₁.icache k).inum = i →
      (0 < i ∧ i < sb.ninodes) → Reaches F c i →
      wp (Fs.namexLoop nameiparent (path.length + 1) path k) s₁ (fun r s' => Keep B s s' ∧
        Resolved sb F B (walk F nameiparent (path.length + 1) path i) r s')
        (NamexFault F B c) := by
    intro k s₁ i h₁ hk₁ hi₁ hr₁ hreach
    refine wp_mono (h₁.namexLoop hs (h.anchored.keep hk₁) hi₁ hr₁ hreach (Nat.lt_succ_self _)) ?_
    rintro r s₂ ⟨hk₂, hres⟩
    exact ⟨hk₁.trans hk₂, hres⟩
  by_cases habs : path.head? = some slash
  · rw [if_pos habs, if_pos habs]
    refine wp_chain (h.iget_cases ROOTINO) ?_
      (fun e he => .inl ⟨he.1, ROOTINO, fun l hl _ => he.2 l hl⟩)
    rintro k s₁ ⟨h₁, hk₁, hi₁⟩
    exact hend k s₁ ROOTINO h₁ hk₁ hi₁ ⟨by decide, hroot⟩ Reaches.root
  · rw [if_neg habs, if_neg habs]
    refine wp_seq (h.idup hc) ?_
    rintro k s₁ ⟨rfl, h₁, hk₁⟩
    exact hend k s₁ c h₁ hk₁ (by rw [hk₁ k hc, hi]) hr Reaches.cwd

theorem Abs.namex {cwd : Nat} (hs : Sane sb.ninodes F) (h : Abs sb s F B ∅) (hc : 0 < B cwd)
    (hi : (s.icache cwd).inum = c) (hr : 0 < c ∧ c < sb.ninodes) (hroot : ROOTINO < sb.ninodes)
    (path : List UInt8) (nameiparent : Bool) :
    wp (namex path nameiparent cwd) s
      (fun r s' => Keep B s s' ∧ Resolved sb F B (walkPath F nameiparent path c) r s')
      (Halts (Dangling F c)) :=
  wp_conseq (h.namex_cases hs.listed hc hi hr hroot path nameiparent) (fun _ _ hq => hq)
    (fun _ he => he.halts)

end Xv6.Fs
