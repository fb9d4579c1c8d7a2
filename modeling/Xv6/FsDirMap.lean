import Xv6.FsEffects
import Xv6.SlotMap

/-!
# Directories are finite maps

A directory in which no two entries in use have the same key stands for a finite map from keys to
inode numbers. `dirlookup` looks a name up in it, `dirlink` adds a name that is not there, and
`sys_unlink` removes a name by clearing the entry that `dirlookup` has found.
-/

namespace Xv6.Fs

open Prog
open Function

variable {s s' : FsState} {dp inum m : Nat} {f g : File} {name : Name} {k : List UInt8}

/-- An entry as a slot: empty, or a key with an inode number. -/
def File.slot (f : File) (m : Nat) : Option (List UInt8 × Nat) :=
  if f.inumAt m = 0 then none else some (f.keyAt m, f.inumAt m)

/-- The map that a directory stands for. -/
def File.names (f : File) : List UInt8 → Option Nat := SlotMap.toMap f.slot (f.size / 16)

/-- A directory of whole entries, with one entry for a name. -/
structure File.IsMap (f : File) : Prop extends f.IsDir where
  distinct : SlotMap.Distinct f.slot (f.size / 16)

theorem File.slot_eq_some {i : Nat} : f.slot m = some (k, i) ↔ f.Matches k m ∧ f.inumAt m = i := by
  rw [File.slot, File.Matches]
  split_ifs with h
  · simp [h]
  · simp [h]

/-- The first entry with a key decides. -/
theorem File.names_eq (f : File) (k : List UInt8) : f.names k = (f.lookup k).map f.inumAt := by
  rw [File.names, SlotMap.toMap, File.lookup]
  induction List.range (f.size / 16) with
  | nil => rfl
  | cons m l ih =>
    rw [List.findSome?_cons, List.find?_cons]
    by_cases hm : f.Matches k m
    · rw [SlotMap.bind_eq_some.mpr (File.slot_eq_some.mpr ⟨hm, rfl⟩)]
      simp [hm]
    · have hnone : (f.slot m).bind (fun x => if x.1 = k then some x.2 else none) = none := by
        rw [Option.eq_none_iff_forall_ne_some]
        intro i hi
        exact hm (File.slot_eq_some.mp (SlotMap.bind_eq_some.mp hi)).1
      rw [hnone]
      simpa [hm] using ih

theorem File.lookup_eq_none : f.lookup k = none ↔ f.names k = none := by
  rw [File.names_eq, Option.map_eq_none_iff]

theorem File.IsDir.isMap (h : f.IsDir) (h0 : f.size = 0) : f.IsMap ∧ f.names = fun _ => none := by
  refine ⟨⟨h, ?_⟩, ?_⟩
  · rw [h0]
    exact fun m hm => absurd hm (Nat.not_lt_zero m)
  · rw [File.names, h0]
    rfl

/-! ### Adding and removing names -/

theorem File.slot_setEntry (e : Nat) (h0 : 0 < inum) (hlt : inum < 2 ^ 16) :
    (f.setEntry e inum name).slot = update f.slot e (some (key (cstr name), inum)) := by
  funext m
  rcases eq_or_ne m e with rfl | hm
  · rw [update_self, File.slot, File.inumAt_setEntry_self.1, File.inumAt_setEntry_self.2,
      Nat.mod_eq_of_lt hlt, if_neg (by omega)]
  · rw [update_of_ne hm, File.slot, File.slot, File.inumAt_setEntry_ne hm,
      File.keyAt_setEntry_ne hm]

theorem File.slot_clearEntry (f : File) (m : Nat) :
    (f.clearEntry m).slot = update f.slot m none := by
  funext l
  rcases eq_or_ne l m with rfl | hl
  · rw [update_self, File.slot, File.inumAt_clearEntry_self, if_pos rfl]
  · rw [update_of_ne hl, File.slot, File.slot, File.inumAt, File.keyAt,
      File.clearEntry_entry_ne hl]
    rfl

theorem File.slot_emptySlot (h : f.emptySlot < f.size / 16) : f.slot f.emptySlot = none := by
  rw [File.emptySlot] at h ⊢
  cases hfind : (List.range (f.size / 16)).find? (fun n => f.inumAt n = 0) with
  | none =>
    rw [hfind] at h
    exact absurd h (Nat.lt_irrefl _)
  | some m =>
    have hm := List.find?_some hfind
    rw [decide_eq_true_eq] at hm
    rw [Option.getD_some, File.slot, if_pos hm]

theorem File.IsMap.add (h : f.IsMap) (hnone : f.names (key (cstr name)) = none) (h0 : 0 < inum)
    (hlt : inum < 2 ^ 16) : (f.setEntry f.emptySlot inum name).IsMap ∧
      (f.setEntry f.emptySlot inum name).names = update f.names (key (cstr name)) (some inum) := by
  have hle := f.emptySlot_le
  obtain ⟨hsize, hwhole⟩ := @File.setEntry_entries f f.emptySlot inum name hle h.whole
  have hslot := @File.slot_setEntry inum f name f.emptySlot h0 hlt
  refine ⟨⟨⟨h.type, hwhole⟩, ?_⟩, ?_⟩
  · rw [hsize, hslot]
    exact SlotMap.distinct_insert h.distinct hle hnone
  · rw [File.names, hsize, hslot]
    exact SlotMap.toMap_insert h.distinct hle File.slot_emptySlot hnone

theorem File.IsMap.remove (h : f.IsMap) (hm : f.lookup k = some m) :
    (f.clearEntry m).IsMap ∧ (f.clearEntry m).names = update f.names k none := by
  obtain ⟨hlt, hmatch⟩ := lookup_some hm
  have hsize := File.clearEntry_size hlt
  refine ⟨⟨⟨h.type, by rw [hsize]; exact h.whole⟩, ?_⟩, ?_⟩
  · rw [hsize, File.slot_clearEntry]
    exact SlotMap.distinct_erase h.distinct m
  · rw [File.names, hsize, File.slot_clearEntry]
    exact SlotMap.toMap_erase h.distinct hlt (File.slot_eq_some.mpr ⟨hmatch, rfl⟩)

/-! ### The calls -/

theorem DirAt.frame (h : DirAt s dp f) (hgood : Good s')
    (hfile : files s' (s.icache dp).inum = files s (s.icache dp).inum)
    (hinum : (s'.icache dp).inum = (s.icache dp).inum) (href : 0 < (s'.icache dp).ref)
    (hvalid : (s'.icache dp).valid = (s.icache dp).valid) : DirAt s' dp f :=
  ⟨hgood, ⟨h.loaded.lt, href, hvalid.trans h.loaded.valid⟩, by rw [hinum, hfile, h.file], h.dir⟩

theorem DirAt.got {i l : Nat} (h : DirAt s dp f) (hg : Got s i l s') : DirAt s' dp f := by
  have hgood := hg.good h.good
  have hfiles := hg.frame.2.2
  have hpos := h.loaded.ref
  obtain ⟨-, ⟨hr, -, rfl⟩ | ⟨-, h0, rfl⟩⟩ := hg
  · rcases eq_or_ne dp l with rfl | hne
    · refine h.frame hgood (by rw [hfiles]) ?_ ?_ ?_ <;>
        rw [putInode_icache, update_self]
      exact Nat.succ_pos _
    · refine h.frame hgood (by rw [hfiles]) ?_ ?_ ?_ <;>
        rw [putInode_icache, update_of_ne hne]
      exact hpos
  · have hne : dp ≠ l := by
      rintro rfl
      omega
    refine h.frame hgood (by rw [hfiles]) ?_ ?_ ?_ <;>
      rw [putInode_icache, update_of_ne hne]
    exact hpos

/-- The reference that `dirlookup` has taken is dropped again. The inode may be freed, but it is not
the directory, which the caller has a reference to. -/
theorem DirAt.iput_got {i l : Nat} {s₁ : FsState} (h : DirAt s dp f) (hg : Got s i l s₁) :
    wp (iput l) s₁ (fun _ s' => DirAt s' dp f)
      (fun e => e = .deadlock l ∧ (s.icache l).locked = true) := by
  have h₁ := h.got hg
  have hpos := h.loaded.ref
  have hentry : l < NINODE ∧ 0 < (s₁.icache l).ref ∧
      (s₁.icache l).locked = (s.icache l).locked ∧ (l = dp → 2 ≤ (s₁.icache l).ref) := by
    obtain ⟨hl, ⟨hr, -, rfl⟩ | ⟨-, h0, rfl⟩⟩ := hg <;>
      simp only [putInode_icache, update_self]
    · exact ⟨hl, Nat.succ_pos _, trivial, by omega⟩
    · refine ⟨hl, Nat.one_pos, trivial, ?_⟩
      rintro rfl
      omega
  obtain ⟨hl, hr, hlocked, htwo⟩ := hentry
  cases hu : (s₁.icache l).locked with
  | true =>
    simp only [iput, acquiresleep, wp_bind, wp_getInode, hu, if_true, wp_sleepForever]
    exact ⟨trivial, hlocked.symm.trans hu⟩
  | false =>
    refine wp_mono (iput_spec h₁.good hl hr hu) ?_
    rintro _ s₂ (⟨-, rfl⟩ | ⟨hlast, hfreed⟩)
    · have hgood : Good (s₁.putInode l { s₁.icache l with ref := (s₁.icache l).ref - 1 }) :=
        h₁.good.setEntry hl hr rfl rfl rfl
      rcases eq_or_ne dp l with rfl | hne
      · have h2 := htwo rfl
        refine h₁.frame hgood rfl ?_ ?_ ?_ <;> rw [putInode_icache, update_self]
        simp only
        omega
      · refine h₁.frame hgood rfl ?_ ?_ ?_ <;> rw [putInode_icache, update_of_ne hne]
        exact h₁.loaded.ref
    · have hne : dp ≠ l := by
        rintro rfl
        have h2 := htwo rfl
        have h1 := hlast.2.2
        omega
      have hinum : (s₁.icache dp).inum ≠ (s₁.icache l).inum := fun hc =>
        hne (h₁.good.unique dp h₁.loaded.lt l hl h₁.loaded.ref hr hc)
      have hsame := hfreed.others dp hne
      refine h₁.frame hfreed.good ?_ (by rw [hsame]) (by rw [hsame]; exact h₁.loaded.ref)
        (by rw [hsame])
      rw [hfreed.files, update_of_ne hinum]

/-- Every entry of the inode cache is in use. -/
def CacheFull (s : FsState) : Prop := ∀ l < NINODE, 0 < (s.icache l).ref

namespace DirAt

variable (h : DirAt s dp f)
include h

theorem dirlookup_names (name : Name) :
    wp (dirlookup dp name) s
      (fun r s' => DirAt s' dp f ∧ match f.names (key (cstr name)) with
        | none => r = none
        | some inum => ∃ l m, r = some (l, 16 * m) ∧ (s'.icache l).inum = inum ∧
            f.lookup (key (cstr name)) = some m)
      (fun e => e = noCacheEntry ∧ CacheFull s) := by
  refine wp_conseq (dirlookup_cases name h) ?_ (fun e he => ⟨he.1, he.2.2⟩)
  intro r s₁ hpost
  rw [File.names_eq]
  cases hm : f.lookup (key (cstr name)) with
  | none =>
    simp only [hm] at hpost
    obtain ⟨hr, rfl⟩ := hpost
    exact ⟨h, hr⟩
  | some m =>
    simp only [hm] at hpost
    obtain ⟨l, hr, hg⟩ := hpost
    refine ⟨h.got hg, l, m, hr, ?_, rfl⟩
    obtain ⟨-, ⟨-, hi, rfl⟩ | ⟨-, -, rfl⟩⟩ := hg
    · rw [putInode_icache, update_self]
      exact hi
    · rw [putInode_icache, update_self]

theorem dirlink_mapped (hmapped : f.names (key (cstr name)) ≠ none) :
    wp (dirlink dp name inum) s (fun r s' => r = -1 ∧ DirAt s' dp f)
      (fun e => e = noCacheEntry ∧ CacheFull s ∨
        ∃ l, e = .deadlock l ∧ (s.icache l).locked = true) := by
  rw [ne_eq, ← File.lookup_eq_none] at hmapped
  obtain ⟨m, hm⟩ := Option.ne_none_iff_exists'.mp hmapped
  have hlook := dirlookup_cases name h
  simp only [hm] at hlook
  simp only [dirlink, wp_bind]
  refine wp_conseq hlook ?_ (fun e he => Or.inl ⟨he.1, he.2.2⟩)
  rintro r s₁ ⟨l, rfl, hg⟩
  simp only [wp_bind, wp_pure]
  refine wp_conseq (h.iput_got hg) ?_ (fun e he => Or.inr ⟨l, he⟩)
  exact fun _ s₂ h₂ => ⟨trivial, h₂⟩

theorem changed (hch : Changed s s' dp g) (hg : g.IsDir) : DirAt s' dp g :=
  ⟨hch.good, hch.loaded h.loaded, by rw [hch.files, hch.inum, update_self], hg⟩

theorem dirlink_new (hf : f.IsMap)
    (hnone : f.names (key (cstr name)) = none) (hroom : ¬ f.Full) (h0 : 0 < inum)
    (hlt : inum < 2 ^ 16) :
    wp (dirlink dp name inum) s
      (fun r s' => r = 0 ∧ ∃ g, DirAt s' dp g ∧ g.IsMap ∧
        g.names = update f.names (key (cstr name)) (some inum))
      (fun e => e = outOfBlocks ∧
        freeBlocks s < (missing s dp (span (16 * f.emptySlot) 16)).card) := by
  obtain ⟨hmap, hnames⟩ := hf.add hnone h0 hlt
  refine wp_conseq (dirlink_add h (File.lookup_eq_none.mpr hnone)) ?_ ?_
  · rintro r s₁ ⟨hr, hch⟩
    exact ⟨hr, _, h.changed hch hmap.toIsDir, hmap, hnames⟩
  · rintro e (he | ⟨-, hfull⟩)
    · exact he
    · exact absurd hfull hroom

/-- The block of an entry is there, so clearing the entry needs no new one. -/
theorem clear (hf : f.IsMap) (hm : f.lookup k = some m) :
    wp (writei dp (fun _ => 0) (16 * m) 16) s
      (fun r s' => r = 16 ∧ ∃ g, DirAt s' dp g ∧ g.IsMap ∧ g.names = update f.names k none)
      (fun _ => False) := by
  have hdev : (s.icache dp).din.type ≠ T_DEV := by
    rw [h.type]
    decide
  obtain ⟨hmap, hnames⟩ := hf.remove hm
  obtain ⟨hlt, -⟩ := lookup_some hm
  have hle := h.size_le
  have hwhole := h.dir.whole
  have hsize := h.size
  refine wp_conseq (writei_spec h.good h.loaded hdev) ?_ ?_
  · rintro r s₁ (⟨hbad, -⟩ | ⟨-, hr, hch⟩)
    · simp only [WriteFails, hsize, MAXFILE, NDIRECT, NINDIRECT, BSIZE] at hbad hle
      omega
    · rw [h.file] at hch
      exact ⟨hr, _, h.changed hch hmap.toIsDir, hmap, hnames⟩
  · rintro e ⟨-, hfree⟩
    rw [h.good.missing_span h.loaded (by omega)] at hfree
    exact absurd hfree (Nat.not_lt_zero _)

end DirAt

/-- A directory with one entry for a name is a finite map to `dirlookup`, `dirlink` and the clearing
of an entry, and stays one. The calls end otherwise only for lack of cache entries or blocks, or
where `dirlink` waits for a lock. An empty directory is the empty map. -/
theorem directory_refines_map (h : DirAt s dp f) (hf : f.IsMap) (name : Name) :
    {k | f.names k ≠ none}.Finite ∧
    wp (dirlookup dp name) s
      (fun r s' => DirAt s' dp f ∧ match f.names (key (cstr name)) with
        | none => r = none
        | some inum => ∃ l m, r = some (l, 16 * m) ∧ (s'.icache l).inum = inum ∧
            f.lookup (key (cstr name)) = some m)
      (fun e => e = noCacheEntry ∧ CacheFull s) ∧
    (∀ inum, 0 < inum → inum < 2 ^ 16 →
      (f.names (key (cstr name)) ≠ none →
        wp (dirlink dp name inum) s (fun r s' => r = -1 ∧ DirAt s' dp f)
          (fun e => e = noCacheEntry ∧ CacheFull s ∨
            ∃ l, e = .deadlock l ∧ (s.icache l).locked = true)) ∧
      (f.names (key (cstr name)) = none → ¬ f.Full →
        wp (dirlink dp name inum) s
          (fun r s' => r = 0 ∧ ∃ g, DirAt s' dp g ∧ g.IsMap ∧
            g.names = update f.names (key (cstr name)) (some inum))
          (fun e => e = outOfBlocks ∧
            freeBlocks s < (missing s dp (span (16 * f.emptySlot) 16)).card))) ∧
    (∀ m, f.lookup (key (cstr name)) = some m →
      wp (writei dp (fun _ => 0) (16 * m) 16) s
        (fun r s' => r = 16 ∧ ∃ g, DirAt s' dp g ∧ g.IsMap ∧
          g.names = update f.names (key (cstr name)) none)
        (fun _ => False)) ∧
    (File.create T_DIR 0 0).IsMap ∧ (File.create T_DIR 0 0).names = fun _ => none :=
  ⟨SlotMap.finite_toMap _ _, h.dirlookup_names name,
    fun _ h0 hlt => ⟨h.dirlink_mapped, fun hnone hroom => h.dirlink_new hf hnone hroom h0 hlt⟩,
    fun _ hm => h.clear hf hm, File.IsDir.isMap ⟨rfl, rfl⟩ rfl⟩

/-- Two entries: an empty one, and inode 1 under the name `a`. -/
def twoEntries (i : Nat) : UInt8 := if i = 16 then 1 else if i = 18 then 97 else 0

def twoSlots : File := ⟨T_DIR, 0, 0, 1, 32, patch (byteAt tiny.disk tinyFile) 0 32 twoEntries⟩

/-- The entries are written to the file of `tiny`, which then becomes a directory. -/
theorem tiny_directory : ∃ s, DirAt s 0 twoSlots := by
  obtain ⟨s₁, -, hch⟩ := @writei_returns tiny 0 0 32 twoEntries tiny_good tiny_loaded (by decide)
    (by unfold WriteFails; decide) (by decide +kernel)
  have hl := hch.loaded tiny_loaded
  have hfile := hch.good.file_eq hl
  rw [hch.files, hch.inum, update_self, tiny_good.file_eq tiny_loaded] at hfile
  have hwf := (hch.good.active hl).wf
  have ht : T_DIR < 2 ^ 16 ∧ T_DIR ≠ 0 := by decide
  obtain ⟨-, s, -, hdir⟩ := wp_returns (@iupdate_setDin s₁ 0
    { (s₁.icache 0).din with type := T_DIR } (fun _ => False) hch.good hl rfl rfl
    ⟨ht.1, hwf.major, hwf.minor, hwf.nlink, hwf.size, hwf.addrs, hwf.short⟩ ht.2) (fun _ he => he)
  have hnew : files s (s.icache 0).inum = twoSlots := by
    rw [hdir.files, hdir.inum, update_self]
    exact congrArg (fun f : File => { f with type := T_DIR }) hfile.symm
  exact ⟨s, hdir.good, hdir.loaded hl, hnew, rfl, rfl⟩

theorem twoSlots_isMap : twoSlots.IsMap := by
  refine ⟨⟨rfl, rfl⟩, ?_⟩
  have hone : ∀ m < 2, ∀ x, twoSlots.slot m = some x → m = 1 := by
    intro m hm x hx
    rcases Nat.lt_succ_iff_lt_or_eq.mp hm with hm | rfl
    · rw [Nat.lt_one_iff.mp hm, show twoSlots.slot 0 = none by decide] at hx
      cases hx
    · rfl
  intro m hm l hl k v w hk hw
  rw [hone m hm _ hk, hone l hl _ hw]

/-- A second name goes into the empty entry. -/
theorem tiny_dirlink : ∃ s s' f g, DirAt s 0 f ∧ f.names (key (cstr [97])) = some 1 ∧
    f.emptySlot < f.size / 16 ∧ dirlink 0 [120] 1 s = .ok (0, s') ∧ DirAt s' 0 g ∧ g.IsMap ∧
    g.names = update f.names (key (cstr [120])) (some 1) := by
  obtain ⟨s, hs⟩ := tiny_directory
  have hlink := ((directory_refines_map hs twoSlots_isMap [120]).2.2.1 1 (by decide)
    (by decide)).2 (by decide) (by unfold File.Full; decide)
  obtain ⟨r, s', hrun, rfl, g, hg, hmap, hnames⟩ := wp_returns hlink (by
    rintro e ⟨-, hfree⟩
    rw [hs.good.missing_span hs.loaded (by rw [hs.size]; decide)] at hfree
    exact absurd hfree (Nat.not_lt_zero _))
  exact ⟨s, s', _, g, hs, by decide, by decide, hrun, hg, hmap, hnames⟩

end Xv6.Fs
