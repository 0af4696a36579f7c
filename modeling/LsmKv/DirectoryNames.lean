import LsmKv.Engine
import LsmKv.FileNames
import Mathlib.Data.List.Sort

/-!
# Directories of names

A directory lists names, in any order. Below twelve digits, what the names say is what the numbers
say, whatever else lies in the directory.
-/

namespace LsmKv
namespace FileNames
open OrderedMap

/-- The order of pairs of a number and a path. -/
def pairLe (p q : ℕ × Bytes) : Prop := p.1 < q.1 ∨ (p.1 = q.1 ∧ p.2 ≤ q.2)

instance : DecidableRel pairLe := fun p q =>
  inferInstanceAs (Decidable (p.1 < q.1 ∨ (p.1 = q.1 ∧ p.2 ≤ q.2)))

/-- The loop over the directory; `std::stoull` throws what is not this store's own exception. -/
def collect : List Bytes → Except ConversionError (List (ℕ × Bytes))
  | [] => .ok []
  | name :: names => match numberOf dotWal name with
    | none => collect names
    | some digits => match stoull digits with
      | .error e => .error e
      | .ok id => match collect names with
        | .error e => .error e
        | .ok rest => .ok ((id, name) :: rest)

def listSegments (names : List Bytes) : Except ConversionError (List (ℕ × Bytes)) :=
  match collect names with
  | .error e => .error e
  | .ok found => .ok (found.insertionSort pairLe)

/-! ## Listing -/

/-- A segment's number with its path. -/
def entryOf (name : Bytes) : Option (ℕ × Bytes) :=
  (numberOf dotWal name).map (fun digits => (numeral digits, name))

theorem collect_eq {names : List Bytes}
    (h : ∀ p ∈ names.filterMap entryOf, p.1 < 2 ^ 64) :
    collect names = .ok (names.filterMap entryOf) := by
  induction names with
  | nil => rfl
  | cons name names ih =>
    rw [collect]
    rcases hnumber : numberOf dotWal name with _ | digits
    · have hnone : entryOf name = none := by rw [entryOf, hnumber]; rfl
      rw [List.filterMap_cons_none hnone] at h ⊢
      exact ih h
    · have hsome : entryOf name = some (numeral digits, name) := by rw [entryOf, hnumber]; rfl
      rw [List.filterMap_cons_some hsome] at h ⊢
      obtain ⟨-, hne, hdigits⟩ := numberOf_eq_some hnumber
      have hsmall := h _ List.mem_cons_self
      have hread := stoull_digits hne hdigits [] (by simp)
      rw [List.append_nil, if_neg (not_le.mpr hsmall)] at hread
      dsimp only
      rw [hread, ih fun p hp => h p (List.mem_cons_of_mem _ hp)]

instance : Std.Total pairLe where
  total p q := by
    rcases lt_trichotomy p.1 q.1 with h | h | h
    · exact .inl (.inl h)
    · exact (le_total p.2 q.2).imp (fun hle => .inr ⟨h, hle⟩) (fun hle => .inr ⟨h.symm, hle⟩)
    · exact .inr (.inl h)

instance : IsTrans (ℕ × Bytes) pairLe where
  trans p q r hpq hqr := by
    rcases hpq with hpq | ⟨hpq, hle⟩
    · rcases hqr with hqr | ⟨hqr, -⟩
      · exact .inl (hpq.trans hqr)
      · exact .inl (hqr ▸ hpq)
    · rcases hqr with hqr | ⟨hqr, hle'⟩
      · exact .inl (hpq ▸ hqr)
      · exact .inr ⟨hpq.trans hqr, hle.trans hle'⟩

instance : Std.Antisymm pairLe where
  antisymm p q hpq hqp := by
    rcases hpq with hpq | ⟨hpq, hle⟩
    · rcases hqp with hqp | ⟨hqp, -⟩ <;> omega
    · rcases hqp with hqp | ⟨-, hle'⟩
      · omega
      · exact Prod.ext hpq (hle.antisymm hle')

/-! ## Directories of names -/

universe u
variable {F : Type u}

/-- A directory of names, and the directory of numbers it stands for. -/
structure Names (suffix : Bytes) (d : OrderedMap Bytes F) (m : OrderedMap ℕ F) : Prop where
  small : ∀ id ∈ m.keys, id < 10 ^ 11
  find : ∀ id < 10 ^ 11, d.find? (fileName suffix id) = m.find? id
  only : ∀ name ∈ d.keys, numberOf suffix name ≠ none → ∃ id ∈ m.keys, name = fileName suffix id

section
variable {suffix ext : Bytes} {d : OrderedMap Bytes F} {m : OrderedMap ℕ F}

/-- In whatever order a directory comes, its segments are listed by number. -/
theorem Names.listSegments (h : Names dotWal d m) {order : List Bytes}
    (horder : order.Perm d.keys) :
    listSegments order = .ok (m.keys.map fun id => (id, segmentName id)) := by
  have hmem : ∀ p, p ∈ order.filterMap entryOf ↔ p ∈ m.keys.map fun id => (id, segmentName id) := by
    intro p
    rw [List.mem_filterMap, List.mem_map]
    constructor
    · rintro ⟨name, hname, hp⟩
      obtain ⟨digits, hnumber, rfl⟩ := Option.map_eq_some_iff.mp hp
      obtain ⟨id, hid, rfl⟩ := h.only name (horder.mem_iff.mp hname) (by simp [hnumber])
      rw [← segmentName, numberOf_segmentName (h.small id hid)] at hnumber
      obtain rfl := Option.some.inj hnumber
      exact ⟨id, hid, Prod.ext (numeral_padded 6 id).symm rfl⟩
    · rintro ⟨id, hid, rfl⟩
      obtain ⟨f, hf⟩ := mem_keys_iff.mp hid
      have hname : segmentName id ∈ d.keys :=
        mem_keys_iff.mpr ⟨f, (h.find id (h.small id hid)).trans hf⟩
      refine ⟨segmentName id, horder.mem_iff.mpr hname, ?_⟩
      rw [entryOf, numberOf_segmentName (h.small id hid)]
      exact congrArg some (Prod.ext (numeral_padded 6 id) rfl)
  have hnodup : (order.filterMap entryOf).Nodup := by
    refine (horder.nodup_iff.mpr (nodup_keys d)).filterMap fun a b p ha hb => ?_
    obtain ⟨_, -, rfl⟩ := Option.map_eq_some_iff.mp ha
    obtain ⟨_, -, hp⟩ := Option.map_eq_some_iff.mp hb
    exact (congrArg Prod.snd hp).symm
  have hsorted : (m.keys.map fun id => (id, segmentName id)).Pairwise pairLe :=
    List.pairwise_map.mpr ((List.pairwise_map.mpr m.sorted).imp fun hlt => .inl hlt)
  have hperm := (List.perm_ext_iff_of_nodup hnodup
    ((nodup_keys m).map fun _ _ heq => (congrArg Prod.fst heq))).mpr hmem
  have hcollect : collect order = .ok (order.filterMap entryOf) := by
    refine collect_eq fun p hp => ?_
    obtain ⟨id, hid, rfl⟩ := List.mem_map.mp ((hmem p).mp hp)
    exact (h.small id hid).trans (by decide)
  rw [FileNames.listSegments, hcollect]
  exact congrArg Except.ok (((List.perm_insertionSort _ _).trans hperm).eq_of_pairwise'
    (List.pairwise_insertionSort _ _) hsorted)

/-! ## Runs of changes -/

/-- A change of the directory: a numbered file is created or written, a numbered file goes, or
something happens to a file that has no number. -/
inductive Change (F : Type u) where
  | store (id : ℕ) (f : F)
  | remove (id : ℕ)
  | foreign (name : Bytes) (f : Option F)

def Change.onNames (suffix : Bytes) (d : OrderedMap Bytes F) : Change F → OrderedMap Bytes F
  | .store id f => d.insert (fileName suffix id) f
  | .remove id => d.erase (fileName suffix id)
  | .foreign name (some f) => d.insert name f
  | .foreign name none => d.erase name

def Change.onNumbers (m : OrderedMap ℕ F) : Change F → OrderedMap ℕ F
  | .store id f => m.insert id f
  | .remove id => m.erase id
  | .foreign _ _ => m

/-- Numbers stay below the twelve digits, and names of others are not numbered ones. -/
def Change.Tame (suffix : Bytes) : Change F → Prop
  | .store id _ | .remove id => id < 10 ^ 11
  | .foreign name _ => numberOf suffix name = none

instance (suffix : Bytes) : (c : Change F) → Decidable (c.Tame suffix)
  | .store id _ | .remove id => inferInstanceAs (Decidable (id < 10 ^ 11))
  | .foreign name _ => inferInstanceAs (Decidable (numberOf suffix name = none))

theorem names_empty (suffix : Bytes) : Names suffix (∅ : OrderedMap Bytes F) ∅ :=
  ⟨nofun, fun _ _ => rfl, nofun⟩

/-- What `fileName suffix` makes of small numbers is read back as them. -/
theorem Names.step (hsuffix : suffix = 46 :: ext) (hlen : ext.length = 3)
    (hext : ∀ c ∈ ext, c ≠ 46) (h : Names suffix d m) {c : Change F} (hc : c.Tame suffix) :
    Names suffix (c.onNames suffix d) (c.onNumbers m) := by
  have hinj : ∀ {id id'}, id < 10 ^ 11 → id' < 10 ^ 11 →
      fileName suffix id = fileName suffix id' → id = id' := fun h h' =>
    fileName_inj hsuffix (h.trans (by decide)) (h'.trans (by decide))
  have hnumber : ∀ id < 10 ^ 11, numberOf suffix (fileName suffix id) ≠ none := fun id hid => by
    rw [numberOf_fileName hsuffix hlen hext hid]
    simp
  cases c with
  | store id f =>
    refine ⟨fun id' hid' => ?_, fun id' hid' => ?_, fun name hname hnumbered => ?_⟩
    · rcases mem_keys_insert.mp hid' with rfl | hid'
      · exact hc
      · exact h.small id' hid'
    · show (d.insert _ f).find? _ = (m.insert id f).find? id'
      rw [find?_insert, find?_insert, h.find id' hid']
      by_cases heq : id = id'
      · rw [if_pos heq, if_pos (congrArg _ heq)]
      · rw [if_neg heq, if_neg fun hn => heq (hinj hc hid' hn)]
    · rcases mem_keys_insert.mp hname with rfl | hname
      · exact ⟨id, mem_keys_insert.mpr (.inl rfl), rfl⟩
      · obtain ⟨id', hid', rfl⟩ := h.only name hname hnumbered
        exact ⟨id', mem_keys_insert.mpr (.inr hid'), rfl⟩
  | remove id =>
    refine ⟨fun id' hid' => h.small id' (mem_keys_erase.mp hid').2, fun id' hid' => ?_,
      fun name hname hnumbered => ?_⟩
    · show (d.erase _).find? _ = (m.erase id).find? id'
      rw [find?_erase, find?_erase, h.find id' hid']
      by_cases heq : id = id'
      · rw [if_pos heq, if_pos (congrArg _ heq)]
      · rw [if_neg heq, if_neg fun hn => heq (hinj hc hid' hn)]
    · obtain ⟨hne, hname⟩ := mem_keys_erase.mp hname
      obtain ⟨id', hid', rfl⟩ := h.only name hname hnumbered
      exact ⟨id', mem_keys_erase.mpr ⟨fun heq => hne (congrArg _ heq), hid'⟩, rfl⟩
  | foreign name f =>
    have hne : ∀ id < 10 ^ 11, name ≠ fileName suffix id := by
      rintro id hid rfl
      exact hnumber id hid hc
    cases f with
    | some f =>
      refine ⟨h.small, fun id hid => ?_, fun name' hname' hnumbered => ?_⟩
      · show (d.insert name f).find? _ = _
        rw [find?_insert, if_neg (hne id hid)]
        exact h.find id hid
      · rcases mem_keys_insert.mp hname' with rfl | hname'
        · exact absurd hc hnumbered
        · exact h.only name' hname' hnumbered
    | none =>
      refine ⟨h.small, fun id hid => ?_, fun name' hname' hnumbered => ?_⟩
      · show (d.erase name).find? _ = _
        rw [find?_erase, if_neg (hne id hid)]
        exact h.find id hid
      · exact h.only name' (mem_keys_erase.mp hname').2 hnumbered

theorem Names.run (hsuffix : suffix = 46 :: ext) (hlen : ext.length = 3)
    (hext : ∀ c ∈ ext, c ≠ 46) (h : Names suffix d m) {cs : List (Change F)}
    (hcs : ∀ c ∈ cs, c.Tame suffix) :
    Names suffix (cs.foldl (Change.onNames suffix) d) (cs.foldl Change.onNumbers m) := by
  induction cs generalizing d m with
  | nil => exact h
  | cons c cs ih =>
    obtain ⟨hc, hcs⟩ := List.forall_mem_cons.mp hcs
    exact ih (h.step hsuffix hlen hext hc) hcs

end

/-- Whatever happens to a log's directory, and in whatever order it is listed afterwards: the
segments come by number, and each name has the file of its number. A segment with twelve digits
would not be listed. -/
theorem listSegments_of_changes {cs : List (Change F)} (hcs : ∀ c ∈ cs, c.Tame dotWal) :
    let named := cs.foldl (Change.onNames dotWal) ∅
    let numbered := cs.foldl Change.onNumbers ∅
    (∀ order : List Bytes, order.Perm named.keys →
      listSegments order = .ok (numbered.keys.map fun id => (id, segmentName id))) ∧
    (∀ id < 10 ^ 11, named.find? (segmentName id) = numbered.find? id) ∧
    ∀ id ≥ 10 ^ 11, ∀ f, ∀ order : List Bytes, order.Perm (named.insert (segmentName id) f).keys →
      listSegments order = .ok (numbered.keys.map fun id => (id, segmentName id)) := by
  have h := (names_empty (F := F) dotWal).run rfl rfl wal_ne_dot hcs
  refine ⟨fun order horder => h.listSegments horder, h.find, fun id hid f order horder => ?_⟩
  have hforeign : (Change.foreign (segmentName id) (some f)).Tame dotWal :=
    numberOf_segmentName_of_le hid
  exact (h.step rfl rfl wal_ne_dot hforeign).listSegments horder

/-- A segment beside a note, listed against the order of its writing. -/
theorem listSegments_of_changes_two :
    listSegments [[110, 46, 116], segmentName 12, segmentName 3] =
      .ok [(3, segmentName 3), (12, segmentName 12)] := by
  have hcs : ∀ c ∈ ([.store 12 0, .foreign [110, 46, 116] (some 1), .store 3 2, .store 4 3,
      .remove 4] : List (Change ℕ)), c.Tame dotWal := by
    decide +kernel
  exact (listSegments_of_changes hcs).1 _ (by decide +kernel)

/-! ## Cleaning a directory of tables -/

/-- The two loops of `open`: leftovers of writes go, then tables the manifest does not name. -/
def cleaned (names : List Bytes) (d : OrderedMap Bytes F) : OrderedMap Bytes F :=
  (d.filter fun name _ => extension name ≠ dotTmp).filter fun name _ =>
    extension name ≠ dotSst || names.contains name

theorem find?_cleaned (names : List Bytes) (d : OrderedMap Bytes F) (name : Bytes) :
    (cleaned names d).find? name = (d.find? name).filter fun _ => extension name ≠ dotTmp &&
      (extension name ≠ dotSst || names.contains name) := by
  rw [cleaned, find?_filter, find?_filter]
  rcases d.find? name with _ | f
  · rfl
  · rw [Option.filter_some, Option.filter_some]
    by_cases htmp : extension name = dotTmp <;> simp [htmp, Option.filter_some]

theorem Names.cleaned {d : OrderedMap Bytes F} {m : OrderedMap ℕ F} (h : Names dotSst d m)
    {live : List ℕ} (hlive : ∀ id ∈ live, id < 10 ^ 11) :
    Names dotSst (cleaned (live.map sstFileName) d) (m.filter fun id _ => live.any (· = id)) := by
  have hlisted : ∀ id < 10 ^ 11, ((live.map sstFileName).contains (sstFileName id)) =
      live.any (· = id) := by
    intro id hid
    rw [Bool.eq_iff_iff, List.contains_iff_mem, List.mem_map, List.any_eq_true]
    constructor
    · rintro ⟨id', hid', heq⟩
      exact ⟨id', hid', decide_eq_true (fileName_inj rfl
        ((hlive id' hid').trans (by decide)) (hid.trans (by decide)) heq)⟩
    · rintro ⟨id', hid', heq⟩
      exact ⟨id', hid', congrArg sstFileName (of_decide_eq_true heq)⟩
  have hfind : ∀ id < 10 ^ 11, (FileNames.cleaned (live.map sstFileName) d).find?
      (sstFileName id) = (m.filter fun id _ => live.any (· = id)).find? id := by
    intro id hid
    have hext : extension (sstFileName id) = dotSst :=
      (numberOf_eq_some (numberOf_sstFileName hid)).1
    have hne : dotSst ≠ dotTmp := by decide
    rw [find?_cleaned, find?_filter, hlisted id hid, hext, sstFileName, h.find id hid]
    simp [hne]
  refine ⟨fun id hid => ?_, hfind, fun name hname hnumber => ?_⟩
  · obtain ⟨f, hf⟩ := mem_keys_iff.mp hid
    rw [find?_filter, Option.filter_eq_some_iff] at hf
    exact h.small id (mem_keys_iff.mpr ⟨f, hf.1⟩)
  · obtain ⟨f, hf⟩ := mem_keys_iff.mp hname
    have hkept := hf
    rw [find?_cleaned, Option.filter_eq_some_iff] at hkept
    obtain ⟨id, hid, rfl⟩ := h.only name (mem_keys_iff.mpr ⟨f, hkept.1⟩) hnumber
    exact ⟨id, mem_keys_iff.mpr ⟨f, (hfind id (h.small id hid)).symm.trans hf⟩, rfl⟩

/-- However tables and temporary files came and went: cleaning by names leaves the files that the
engine finds by number, of each table the manifest lists the one it had, and no other table. -/
theorem loaded_of_changes {config : Config} {disk : Disk} {cs : List (Change Rows)}
    (hcs : ∀ c ∈ cs, c.Tame dotSst) (hfiles : disk.files = cs.foldl Change.onNumbers ∅)
    (hlive : ∀ t ∈ (Engine.loaded config disk).readers, t.id < 10 ^ 11) :
    let left := cleaned ((Engine.loaded config disk).readers.map fun t => sstFileName t.id)
      (cs.foldl (Change.onNames dotSst) ∅)
    (∀ id < 10 ^ 11, left.find? (sstFileName id) = (Engine.loaded config disk).files.find? id) ∧
    ∀ name ∈ left.keys, extension name ≠ dotTmp ∧ (extension name = dotSst →
      ∃ t ∈ (Engine.loaded config disk).readers, name = sstFileName t.id) := by
  have h := (names_empty (F := Rows) dotSst).run rfl rfl sst_ne_dot hcs
  have hids : ∀ id ∈ (Engine.loaded config disk).readers.map (·.id), id < 10 ^ 11 := by
    simpa using hlive
  have hcleaned := h.cleaned hids
  rw [List.map_map] at hcleaned
  refine ⟨fun id hid => ?_, fun name hname => ?_⟩
  · refine (hcleaned.find id hid).trans ?_
    show _ = (disk.files.filter _).find? id
    rw [find?_filter, find?_filter, hfiles, List.any_map]
    rfl
  · obtain ⟨f, hf⟩ := mem_keys_iff.mp hname
    rw [find?_cleaned, Option.filter_eq_some_iff, Bool.and_eq_true] at hf
    refine ⟨of_decide_eq_true hf.2.1, fun hext => ?_⟩
    have hlisted := hf.2.2
    rw [hext] at hlisted
    obtain ⟨t, ht, heq⟩ : ∃ t ∈ (Engine.loaded config disk).readers, sstFileName t.id = name := by
      simpa using hlisted
    exact ⟨t, ht, heq.symm⟩

/-- A table that the manifest lists, one that it does not, and half of a third. -/
def threeFiles : List (Change Rows) := [.store 7 ∅, .store 8 ∅,
  .foreign (sstFileName 9 ++ dotTmp) (some ∅)]

def listsSeven : Disk where
  files := threeFiles.foldl Change.onNumbers ∅
  manifest := some ⟨9, 1, [⟨7, [], [], 0, 0, 0, 0, 0, .ten, 0⟩]⟩

theorem loaded_of_changes_threeFiles :
    (cleaned [sstFileName 7] (threeFiles.foldl (Change.onNames dotSst) ∅)).find?
        (sstFileName 8) = none ∧
      sstFileName 9 ++ dotTmp ∉
        (cleaned [sstFileName 7] (threeFiles.foldl (Change.onNames dotSst) ∅)).keys := by
  have hcs : ∀ c ∈ threeFiles, c.Tame dotSst := by decide +kernel
  have hlive : ∀ t ∈ (Engine.loaded (Config.small 1 1 1) listsSeven).readers, t.id < 10 ^ 11 := by
    decide +kernel
  obtain ⟨hfind, hkeys⟩ := loaded_of_changes hcs rfl hlive
  refine ⟨(hfind 8 (by decide)).trans (by decide +kernel), fun htmp => ?_⟩
  exact (hkeys _ htmp).1 (by decide +kernel)

end FileNames
end LsmKv
