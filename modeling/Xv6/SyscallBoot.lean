import Xv6.MkfsLookup
import Xv6.SyscallRuns

/-!
# From boot on

The kernel starts with a consistent file system, such as one that `mkfs` has made, and `userinit`
makes its root the current directory of the first process. In every run of calls from there, the
references of the inode cache are those of the open files and the current directories.
-/

namespace Xv6.Syscall

open Function

open Prog
open Fs
open Ptable (Slot)

variable {sb : Superblock} {k k' : Kernel} {F : Nat → File} {e : Slot × Call}
  {es : List (Slot × Call)}

/-! ### Boot -/

/-- A file system that the kernel can start with: it is consistent and its root is a directory. -/
structure Bootable (sb : Superblock) (fs : FsState) (F : Nat → File) : Prop
    extends Ready sb fs F (fun _ => 0) where
  rootDir : (F ROOTINO).type = T_DIR

/-- The first process has the root as its current directory. -/
theorem userinit_spec {fs : FsState} (h : Bootable sb fs F) (init : Slot) :
    ∃ l s₁, userinit (boot fs init) = .ok ((), ((boot fs init).setFs s₁).setCwd init (some l)) ∧
      Balanced sb (((boot fs init).setFs s₁).setCwd init (some l)) F := by
  have hzero : (boot fs init).holders = fun _ => 0 := by
    funext j
    simp [Kernel.holders, holders, boot, inodeOf]
  have hspec : wp userinit (boot fs init) (fun _ k₀ => ∃ l s₁,
      k₀ = ((boot fs init).setFs s₁).setCwd init (some l) ∧ Balanced sb k₀ F) (fun _ => False) := by
    simp only [userinit, namei, namex, wp_bind, wp_onFs]
    rw [if_pos (show [slash].head? = some slash from rfl)]
    refine wp_conseq (iget_spec ROOTINO fs) ?_ ?_
    · intro l s₁ hg
      obtain ⟨h₁, hk₁, hi₁⟩ := h.toAbs.got hg
      have hinc : holders (boot fs init).file (update (boot fs init).cwd init (some l)) =
          inc (boot fs init).holders l := holders_fork rfl
      rw [hzero] at hinc
      refine ⟨l, s₁, rfl, fun f _ => rfl, ?_⟩
      change Ready sb s₁ F (holders (boot fs init).file
        (update (boot fs init).cwd init (some l)))
      rw [hinc]
      refine ⟨⟨h₁, fun j hj => ?_⟩, h.sane, h.root, h.small⟩
      have hjl : j = l := by
        by_contra hne
        rw [inc_of_ne hne] at hj
        omega
      rw [hjl, hi₁, h.rootDir]
      decide
    · rintro e ⟨-, hfull⟩
      have h0 := hfull 0 (by decide)
      rw [h.refs 0 (by decide)] at h0
      exact absurd h0 (lt_irrefl 0)
  obtain ⟨_, k₀, heq, l, s₁, rfl, hk₀⟩ := wp_returns hspec (fun _ he => he)
  exact ⟨l, s₁, heq, hk₀⟩

/-! ### Images of `mkfs` -/

section mkfs

open Mkfs

variable {s : MkState} {ins : List InputFile} {j : Nat}

/-- The files of an image. -/
def made (ins : List InputFile) : Nat → File :=
  update (imageFiles ins) ROOTINO (rootFile ins)

theorem rootFile_entry {n : Nat} {x : Nat × Name} (hn : (rootEntries ins)[n]? = some x) :
    (rootFile ins).inumAt n = x.1 % 2 ^ 16 ∧ (rootFile ins).keyAt n = key (cstr x.2) :=
  dirFile_entry hn

theorem rootFile_inumAt_of_le {n : Nat} (hn : ins.length + 2 ≤ n) : (rootFile ins).inumAt n = 0 :=
  dirFile_inumAt_of_le (by rwa [rootEntries_length])

theorem rootFile_inumAt (hfit : Mkfs.Fits ins) {n : Nat} (hn : n < ins.length + 2) :
    (rootFile ins).inumAt n = if n < 2 then ROOTINO else n := by
  have hlen : n < (rootEntries ins).length := by rwa [rootEntries_length]
  have hget : (rootEntries ins)[n]? = some (rootEntries ins)[n] := List.getElem?_eq_getElem hlen
  have hinodes := hfit.inodes
  simp only [NINODES] at hinodes
  rw [(rootFile_entry hget).1, rootEntries_inum hget]
  split_ifs
  · rfl
  · exact Nat.mod_eq_of_lt (by omega)

theorem made_ne_root (hj : j ≠ ROOTINO) : made ins j = imageFiles ins j :=
  update_of_ne hj _ _

theorem made_type_ne_dir (hj : j ≠ ROOTINO) : (made ins j).type ≠ T_DIR := by
  rw [made_ne_root hj]
  match j with
  | 0 => exact (by decide : 0 ≠ T_DIR)
  | 1 => exact absurd rfl hj
  | j + 2 =>
    rw [imageFiles]
    split
    · exact (by decide : T_FILE ≠ T_DIR)
    · exact (by decide : 0 ≠ T_DIR)

theorem made_nlink (hj : (made ins j).type ≠ 0) : (made ins j).nlink = 1 := by
  by_cases hr : j = ROOTINO
  · rw [hr, made, update_self]
    rfl
  · rw [made_ne_root hr] at hj ⊢
    match j with
    | 0 => exact absurd rfl hj
    | 1 => rfl
    | j + 2 =>
      rw [imageFiles] at hj ⊢
      split at hj
      · rfl
      · exact absurd rfl hj

theorem sane_made (hfit : Mkfs.Fits ins) : Sane Mkfs.sb.ninodes (made ins) := by
  intro d hd
  by_cases hr : d = ROOTINO
  · rw [hr, made, update_self]
    refine ⟨?_, ?_, ?_⟩
    · change rootSize ins % 16 = 0
      simp only [rootSize, BSIZE]
      omega
    · intro m _
      change _ < NINODES
      by_cases hm : m < ins.length + 2
      · have hinodes := hfit.inodes
        rw [rootFile_inumAt hfit hm]
        simp only [NINODES, ROOTINO] at *
        split_ifs <;> omega
      · rw [rootFile_inumAt_of_le (by omega)]
        decide
    · intro _ m _ hself
      by_cases hm : m < ins.length + 2
      · rw [rootFile_inumAt hfit hm] at hself
        rcases m with _ | _ | m
        · exact Or.inl (rootFile_entry (x := (ROOTINO, [46])) rfl).2
        · exact Or.inr ⟨rfl, (rootFile_entry (x := (ROOTINO, [46, 46])) rfl).2⟩
        · rw [if_neg (by omega)] at hself
          simp only [ROOTINO] at hself
          omega
      · rw [rootFile_inumAt_of_le (by omega)] at hself
        cases hself
  · exact absurd hd (made_type_ne_dir hr)

/-- An image is a file system to boot from, unless the root directory's last block is missing. -/
theorem bootable_of_finished (h : Finished s ins) (hfit : Mkfs.Fits ins)
    (hcov : (ins.length + 2) % 32 ≠ 0) (devread : Nat → Option (Nat → List UInt8))
    (devwrite : Nat → Option (Nat → Int)) :
    Bootable Mkfs.sb (iinit s.img devread devwrite) (made ins) := by
  have hsb : (iinit s.img devread devwrite).sb = Mkfs.sb := h.vol.super
  have hgood : Good (iinit s.img devread devwrite) := by
    refine ⟨?_, ?_, fun k _ hk => absurd hk (lt_irrefl 0), fun k _ l _ hk => absurd hk (lt_irrefl 0)⟩
    · rw [hsb]
      exact h.vol
    · rw [hsb]
      exact h.covered_iff.mpr hcov
  have hfiles : files (iinit s.img devread devwrite) = made ins := by
    rw [files, hsb]
    exact h.files
  have habs : Abs Mkfs.sb (iinit s.img devread devwrite) (made ins) (fun _ => 0) ∅ := by
    refine ⟨hsb, hgood, hfiles, fun _ _ => rfl, fun k hk => absurd hk (lt_irrefl 0), ?_, ?_, ?_⟩
    · intro k _
      simp [iinit]
    · intro k hk
      exact absurd hk (Finset.notMem_empty k)
    · intro i hi h0
      rw [made_nlink hi] at h0
      cases h0
  exact ⟨⟨⟨habs, fun k hk => absurd hk (lt_irrefl 0)⟩, sane_made hfit, by decide, by decide⟩, rfl⟩

theorem exists_bootable : ∃ fs, Bootable Mkfs.sb fs (made []) := by
  have hfit : Mkfs.Fits [] := ⟨by decide, by decide, by decide⟩
  obtain ⟨s, -, hfin⟩ := main_finished [] hfit (by decide)
  exact ⟨_, bootable_of_finished hfin hfit (by decide) (fun _ => none) (fun _ => none)⟩

end mkfs

/-! ### References in every run -/

/-- After `userinit` and any calls, the references of each entry of the inode cache are the open
files and the current directories that it is for, no two entries are for the same inode, and an
inode that something refers to is allocated. As long as something refers to it, calls leave it as
it is: it stays in its entry, with its type and all of its content. -/
theorem inode_refs_balanced {fs : FsState} (h : Bootable sb fs F) (init : Slot) :
    ∃ k₀, userinit (boot fs init) = .ok ((), k₀) ∧ ∀ es k, run step k₀ es = some k →
      (∀ j < NINODE, (k.fs.icache j).ref = k.holders j) ∧
      (∀ j < NINODE, ∀ l < NINODE, 0 < (k.fs.icache j).ref → 0 < (k.fs.icache l).ref →
        (k.fs.icache j).inum = (k.fs.icache l).inum → j = l) ∧
      (∀ j, 0 < k.holders j → j < NINODE ∧ (k.fileAt j).type ≠ 0) ∧
      ∀ es' k' j, run step k es' = some k' → Along step (fun k _ => 0 < k.holders j) k es' →
        0 < k'.holders j →
        (k'.fs.icache j).inum = (k.fs.icache j).inum ∧ Kept (k.fileAt j) (k'.fileAt j) := by
  obtain ⟨l, s₁, hboot, hk₀⟩ := userinit_spec h init
  refine ⟨_, hboot, fun es k hrun => ?_⟩
  obtain ⟨F', hk⟩ := balanced_run hk₀ hrun
  refine ⟨hk.ready.refs, hk.ready.good.unique, fun j hj => ⟨hk.ready.range j hj, ?_⟩, ?_⟩
  · rw [Kernel.fileAt, hk.ready.files]
    exact hk.ready.live j hj
  · intro es' k' j hrun' halong hj'
    exact kept_run hk hrun' halong hj'

/-- The first process makes a pipe and forks: both processes refer to the root then. -/
theorem pipeThenFork_balanced : ∃ fs k₀ k c, Bootable Mkfs.sb fs (made []) ∧
    userinit (boot fs 0) = .ok ((), k₀) ∧
    run step k₀ [(0, .pipe (some 7)), (0, .fork (some (1, 2)))] = some k ∧
    k.cwd 0 = some c ∧ k.cwd 1 = some c ∧ (k.fs.icache c).ref = 2 ∧ k.holders c = 2 := by
  obtain ⟨fs, hfs⟩ := exists_bootable
  obtain ⟨c, s₁, hboot, hk₀⟩ := userinit_spec hfs 0
  obtain ⟨k₀, hboot', hall⟩ := inode_refs_balanced hfs 0
  obtain rfl : ((boot fs 0).setFs s₁).setCwd 0 (some c) = k₀ :=
    (Prod.mk.inj (Except.ok.inj (hboot.symm.trans hboot'))).2
  have hone : holders (fun _ => ({} : Ftable.File)) (update (fun _ : Slot => none) 0 (some c)) c =
      1 := by
    rw [holders_fork rfl, inc_self]
    simp [holders, inodeOf]
  have hc : c < NINODE := hk₀.ready.range c (Nat.one_pos.trans_eq hone.symm)
  have href : (s₁.icache c).ref = 1 := (hk₀.ready.refs c hc).trans hone
  have hrun : ∃ k, run step (((boot fs 0).setFs s₁).setCwd 0 (some c))
      [(0, .pipe (some 7)), (0, .fork (some (1, 2)))] = some k ∧
      k.cwd 0 = some c ∧ k.cwd 1 = some c ∧
      k.fs = s₁.putInode c { s₁.icache c with ref := (s₁.icache c).ref + 1 } :=
    ⟨_, rfl, rfl, rfl, rfl⟩
  obtain ⟨k, hk, h0, h1, hfs'⟩ := hrun
  have htwo : (k.fs.icache c).ref = 2 := by
    rw [hfs', putInode_icache, update_self, href]
  exact ⟨fs, _, k, c, hfs, hboot, hk, h0, h1, htwo, ((hall _ k hk).1 c hc).symm.trans htwo⟩

end Xv6.Syscall
