import Xv6.FsEntries

/-!
# Operations keep file system states good

Every operation on blocks and inodes takes a good state to a good state, unless the disk or the
inode cache is exhausted. Reading changes nothing, and truncating never meets a block that is free
already. `dirlink` has preconditions of its own: a directory of whole entries with room for one
more, and a name that does not already name an inode locked by the caller.
-/

namespace Xv6.Fs

open Function

open Prog

variable {s : FsState} {ip : Nat}

theorem writei_good (h : Good s) (hl : Loaded s ip) (src : Nat → UInt8) (off n : Nat) :
    wp (writei ip src off n) s (fun _ s' => Good s') (fun e => e = outOfBlocks) := by
  by_cases hdev : (s.icache ip).din.type = T_DEV
  · simp only [writei, wp_bind, wp_getInode, wp_get, if_pos hdev]
    split_ifs
    · exact h
    · cases s.devwrite (s.icache ip).din.major with
      | none => exact h
      | some write => exact h
  · refine wp_conseq (writei_spec h hl hdev) ?_ (fun e he => he.1)
    rintro r s₁ (⟨-, -, rfl⟩ | ⟨-, -, hch⟩)
    · exact h
    · exact hch.good

theorem readi_same (h : Good s) (hl : Loaded s ip) (off n : Nat) :
    wp (readi ip off n) s (fun _ s' => s' = s) (fun _ => False) := by
  by_cases hdev : (s.icache ip).din.type = T_DEV
  · simp only [readi, wp_bind, wp_getInode, wp_get, if_pos hdev]
    split_ifs
    · exact rfl
    · exact rfl
  · exact wp_mono (readi_file h hl hdev) (fun _ _ hr => hr.2)

theorem ialloc_good (h : Good s) {type : Nat} (ht : type < 2 ^ 16) :
    wp (ialloc type) s (fun _ s' => Good s') (fun e => e = noInodes ∨ e = noCacheEntry) := by
  refine wp_mono (ialloc_spec type s) ?_
  rintro k s₁ ⟨i, hi, hfree, hg⟩
  exact hg.good (newInode_good h hi hfree ht).1

theorem iput_good {E : Fault → Prop} (h : Good s) (hk : ip < NINODE) (hr : 0 < (s.icache ip).ref)
    (hu : (s.icache ip).locked = false) : wp (iput ip) s (fun _ s' => Good s') E := by
  refine wp_mono (iput_spec h hk hr hu) ?_
  rintro _ s₁ (⟨-, rfl⟩ | ⟨-, hfreed⟩)
  · exact h.setEntry hk hr rfl rfl rfl
  · exact hfreed.good

theorem dirlink_good {dp inum : Nat} {name : Name} {f : File} (h : DirAt s dp f)
    (hroom : f.lookup (key (cstr name)) = none → ¬ f.Full)
    (hlock : ∀ m, f.lookup (key (cstr name)) = some m → ∀ k < NINODE,
      (s.icache k).locked = true → 0 < (s.icache k).ref ∧ (s.icache k).inum ≠ f.inumAt m) :
    wp (dirlink dp name inum) s (fun _ s' => Good s')
      (fun e => e = outOfBlocks ∨ e = noCacheEntry) := by
  cases hlook : f.lookup (key (cstr name)) with
  | none =>
    refine wp_conseq (dirlink_none h hlook) (fun _ _ hq => hq.2.good) ?_
    rintro e (he | he | ⟨-, hfull⟩)
    · exact Or.inr he
    · exact Or.inl he
    · exact absurd hfull (hroom hlook)
  | some m =>
    refine dirlink_some h hlook (Or.inr rfl) (fun k s₁ hg => ?_)
    have hgood := hg.good h.good
    obtain ⟨hk, ⟨hr, hi, rfl⟩ | ⟨-, h0, rfl⟩⟩ := hg
    · have hu : (s.icache k).locked = false := by
        by_contra hc
        exact (hlock m hlook k hk (by simpa using hc)).2 hi
      refine iput_good hgood hk ?_ ?_
      · rw [putInode_icache, update_self]
        exact Nat.succ_pos _
      · rw [putInode_icache, update_self]
        exact hu
    · have hu : (s.icache k).locked = false := by
        by_contra hc
        have := (hlock m hlook k hk (by simpa using hc)).1
        omega
      refine iput_good hgood hk ?_ ?_
      · rw [putInode_icache, update_self]
        exact Nat.one_pos
      · rw [putInode_icache, update_self]
        exact hu

/-- From a good state, every operation ends in a good state or panics for lack of blocks, inodes
or cache entries. -/
theorem operations_keep_good (h : Good s) :
    (∀ ip src off n, Loaded s ip →
      wp (writei ip src off n) s (fun _ s' => Good s') (fun e => e = outOfBlocks)) ∧
    (∀ ip off n, Loaded s ip → wp (readi ip off n) s (fun _ s' => s' = s) (fun _ => False)) ∧
    (∀ ip, Loaded s ip → wp (itrunc ip) s (fun _ s' => Good s') (fun _ => False)) ∧
    (∀ type < 2 ^ 16, wp (ialloc type) s (fun _ s' => Good s')
      (fun e => e = noInodes ∨ e = noCacheEntry)) ∧
    (∀ ip < NINODE, 0 < (s.icache ip).ref → (s.icache ip).locked = false →
      wp (iput ip) s (fun _ s' => Good s') (fun _ => False)) ∧
    (∀ dp name inum f, Loaded s dp → files s (s.icache dp).inum = f → f.IsDir →
      (f.lookup (key (cstr name)) = none → ¬ f.Full) →
      (∀ m, f.lookup (key (cstr name)) = some m → ∀ k < NINODE, (s.icache k).locked = true →
        0 < (s.icache k).ref ∧ (s.icache k).inum ≠ f.inumAt m) →
      wp (dirlink dp name inum) s (fun _ s' => Good s')
        (fun e => e = outOfBlocks ∨ e = noCacheEntry)) := by
  refine ⟨fun ip src off n hl => writei_good h hl src off n,
    fun ip off n hl => readi_same h hl off n, fun ip hl => ?_, fun type ht => ialloc_good h ht,
    fun ip hk hr hu => iput_good h hk hr hu,
    fun dp name inum f hl hf hd hroom hlock => dirlink_good ⟨h, hl, hf, hd⟩ hroom hlock⟩
  exact wp_mono (itrunc_good h hl) (fun _ _ hq => hq.1.good)

/-- A write of three bytes allocates a block, and `itrunc` frees it. -/
theorem tiny_writei_itrunc : ∃ s₁ s₂, writei 0 (fun _ => 7) 0 3 tiny = .ok (3, s₁) ∧ Good s₁ ∧
    addrOf s₁.disk (s₁.icache 0).din 0 ≠ 0 ∧ itrunc 0 s₁ = .ok ((), s₂) ∧ Good s₂ := by
  obtain ⟨r, s₁, hw, heval⟩ := returns_of_eval (by decide +kernel :
    (writei 0 (fun _ => 7) 0 3 tiny).toOption.map (fun r => (r.1, addrOf r.2.disk
      (r.2.icache 0).din 0, (r.2.icache 0).ref, (r.2.icache 0).valid)) = some (3, 4, 1, true))
  obtain ⟨rfl, haddr, href, hvalid⟩ : r = 3 ∧ _ = 4 ∧ _ = 1 ∧ _ = true := by simpa using heval
  have hgood := wp_ok ((operations_keep_good tiny_good).1 0 _ 0 3 tiny_loaded) hw
  obtain ⟨_, s₂, hi, hgood₂⟩ := wp_returns ((operations_keep_good hgood).2.2.1 0
    ⟨by decide, by rw [href]; decide, hvalid⟩) (fun _ he => he)
  exact ⟨s₁, s₂, hw, hgood, by rw [haddr]; decide, hi, hgood₂⟩

/-- Adding an entry to a file that is not a directory panics for another reason. -/
theorem tiny_dirlink_panics : Good tiny ∧ Loaded tiny 0 ∧
    dirlink 0 [120] 1 tiny = .error (.panic "dirlookup not DIR") :=
  ⟨tiny_good, tiny_loaded, rfl⟩

end Xv6.Fs
