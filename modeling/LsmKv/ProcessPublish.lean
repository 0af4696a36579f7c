import LsmKv.ProcessTables

/-!
# Publishing tables

A flush or a compaction edits the manifest, in memory even where the file cannot be written, and
the readers follow it. The ids stay in use once: a table is listed under an id that no earlier
one has had, since what was listed has moved the next id past itself.
-/

namespace LsmKv
open Sst (TableMeta TableReader)
open OrderedMap

namespace Process

section
variable {p p' : Process} {added : Option TableMeta} {m : Manifest}

/-! ## Manifest edits -/

/-- A manifest edit: tables go, and perhaps one comes, written under the free id. -/
structure Edits (p : Process) (added : Option TableMeta) (m : Manifest) : Prop where
  once : (m.tables.map (·.id)).Nodup
  next : p.manifest.nextSstId ≤ m.nextSstId
  from_ : ∀ t ∈ m.tables, t ∈ p.manifest.tables ∨ t ∈ added
  free : ∀ t ∈ added, t.id = p.manifest.nextSstId ∧ t.id < m.nextSstId ∧
    (p.files.find? t.id).isSome

theorem Edits.not_object (h : p.Sound) (he : Edits p added m) {i : ℕ} {info : TableMeta}
    (hi : p.infoAt i = some info) (hid : info.id ∈ m.tables.map (·.id)) :
    info.id ∈ p.manifest.tables.map (·.id) := by
  obtain ⟨t, ht, hsame⟩ := List.mem_map.mp hid
  rcases he.from_ t ht with ht | ht
  · exact hsame ▸ List.mem_map_of_mem ht
  · have hlt := h.lt_of_infoAt hi
    have hnext := (he.free t ht).1
    omega

theorem Edits.stored (he : Edits p added m) {t : TableMeta} (ht : t ∈ added) :
    p.files.find? t.id = some ((p.files.find? t.id).getD []) := by
  obtain ⟨file, hfile⟩ := Option.isSome_iff_exists.mp (he.free t ht).2.2
  rw [hfile]
  rfl

theorem Edits.recorded (he : Edits p added m) {u : PublishedTable}
    (hu : u ∈ (p.record added).published) :
    u ∈ p.published ∨ (u.info ∈ added ∧ p.files.find? u.info.id = some u.file) := by
  rcases List.mem_append.mp hu with hu | hu
  · exact .inl hu
  · obtain ⟨t, ht, rfl⟩ := List.mem_map.mp hu
    exact .inr ⟨Option.mem_toList.mp ht, he.stored (Option.mem_toList.mp ht)⟩

theorem ids_record (added : Option TableMeta) (p : Process) :
    (p.record added).published.map (·.info.id) =
      p.published.map (·.info.id) ++ added.toList.map (·.id) := by
  rw [record, List.map_append, List.map_map]
  rfl

/-- The edit in memory, whether it reaches the file or not. -/
theorem Sound.edit (h : p.Sound) (he : Edits p added m) {stored : Option Manifest}
    (hs : stored = p.stored ∨ stored = some m) :
    Sound { p.record added with manifest := m, stored := stored, creator := .idle } where
  written := h.written
  ids := by
    show ((p.record added).published.map _).Nodup
    rw [ids_record, List.nodup_append]
    refine ⟨h.ids, ?_, ?_⟩
    · cases added <;> simp
    · rintro a ha b hb rfl
      obtain ⟨u, hu, rfl⟩ := List.mem_map.mp ha
      obtain ⟨t, ht, hid⟩ := List.mem_map.mp hb
      have hlt := h.fresh u hu
      have hnext := (he.free t (Option.mem_toList.mp ht)).1
      omega
  fresh := by
    intro u hu
    rcases he.recorded hu with hu | ⟨hadded, -⟩
    · exact (h.fresh u hu).trans_le he.next
    · exact (he.free u.info hadded).2.1
  sections := by
    intro u hu
    rcases he.recorded hu with hu | ⟨-, hfile⟩
    · exact h.sections u hu
    · exact (h.written _ _ hfile).sectioned
  intact := by
    intro u hu file hfile
    rcases he.recorded hu with hu | ⟨-, hown⟩
    · exact h.intact u hu file hfile
    · exact Option.some.inj (hfile.symm.trans hown)
  listedOnce := he.once
  listed := by
    intro t ht
    rcases he.from_ t ht with ht | ht
    · obtain ⟨u, hu, hinfo, hfile⟩ := h.listed t ht
      exact ⟨u, List.mem_append_left _ hu, hinfo, hfile⟩
    · exact ⟨_, List.mem_append_right _ (List.mem_map_of_mem (Option.mem_toList.mpr ht)), rfl,
        he.stored ht⟩
  stored := by
    intro m' hm'
    rcases hs with rfl | rfl
    · exact h.stored m' hm'
    · obtain rfl := Option.some.inj hm'
      exact he.once
  mirrors := by
    intro r hr
    obtain ⟨u, hu, hm⟩ := h.mirrors r hr
    exact ⟨u, List.mem_append_left _ hu, hm⟩
  objectIds := h.objectIds
  kept := fun i info hi hid => h.kept i info hi (Edits.not_object h he hi hid)
  current := h.current
  held := h.held
  places := h.places
  cached := by
    intro n hn
    obtain ⟨u, hu, hblock⟩ := h.cached n hn
    exact ⟨u, List.mem_append_left _ hu, hblock⟩
  memory := h.memory
  progress := trivial

/-- The readers follow the manifest: those of its tables are kept or made, and the new snapshot
has them. -/
theorem Sound.follow (h : p.Sound) (news : List TableMeta) {refs : List ℕ}
    {immutables : List Memtable} {creator : Progress} (hsub : news.Sublist p.manifest.tables)
    (hnews : ∀ t ∈ news, ∀ i info, p.infoAt i = some info → info.id ≠ t.id)
    (hrefs : ∀ i ∈ refs, i ∈ p.readers ∨
      (p.objects.length ≤ i ∧ i < p.objects.length + news.length))
    (hold : ∀ i info, p.infoAt i = some info → info.id ∈ p.manifest.tables.map (·.id) → i ∈ refs)
    (hmade : ∀ i, p.objects.length ≤ i → i < p.objects.length + news.length → i ∈ refs)
    (himm : immutables ⊆ p.immutables)
    (hc : InProgress { p with
      objects := p.objects ++ news.map p.newReader
      readers := refs
      immutables := immutables
      version := ⟨immutables, refs⟩
      creator := creator }) :
    Sound { p with
      objects := p.objects ++ news.map p.newReader
      readers := refs
      immutables := immutables
      version := ⟨immutables, refs⟩
      creator := creator } := by
  have hat : ∀ i, (p.objects ++ news.map p.newReader)[i]? = p.objects[i]? ∨
      (p.objects.length ≤ i ∧ i < p.objects.length + news.length ∧
        ∃ t ∈ news, (p.objects ++ news.map p.newReader)[i]? = some (p.newReader t)) := by
    intro i
    rcases lt_or_ge i p.objects.length with hlt | hge
    · exact .inl (List.getElem?_append_left hlt)
    rw [List.getElem?_append_right hge, List.getElem?_map]
    rcases hn : news[i - p.objects.length]? with _ | t
    · left
      rw [List.getElem?_eq_none hge]
      rfl
    · have hlt := (List.getElem?_eq_some_iff.mp hn).1
      exact .inr ⟨hge, by omega, t, List.mem_of_getElem? hn, rfl⟩
  exact { h with
    mirrors := by
      intro r hr
      rcases List.mem_append.mp hr with hr | hr
      · exact h.mirrors r hr
      · obtain ⟨t, ht, rfl⟩ := List.mem_map.mp hr
        obtain ⟨u, hu, rfl, hfile⟩ := h.listed t (hsub.subset ht)
        refine ⟨u, hu, ?_⟩
        rw [newReader, hfile]
        exact Sst.mirrors_created _ _ _
    objectIds := by
      show ((p.objects ++ news.map p.newReader).map _).Nodup
      rw [List.map_append, List.map_map, List.nodup_append]
      refine ⟨h.objectIds, (hsub.map _).nodup h.listedOnce, ?_⟩
      rintro a ha b hb rfl
      obtain ⟨r, hr, rfl⟩ := List.mem_map.mp ha
      obtain ⟨t, ht, hid⟩ := List.mem_map.mp hb
      obtain ⟨i, hi⟩ := List.getElem?_of_mem hr
      exact hnews t ht i r.info (infoAt_eq_some.mpr ⟨r, hi, rfl⟩) hid.symm
    kept := by
      intro i info hi hid
      rcases hat i with hsame | ⟨hge, hlt, -⟩
      · exact hold i info ((congrArg (Option.map _) hsame).symm.trans hi) hid
      · exact hmade i hge hlt
    current := rfl
    held := by
      have hkeep : ∀ i, p.Refers i → ∃ r, (p.objects ++ news.map p.newReader)[i]? = some r ∧
          p.files.find? r.info.id = r.file := by
        intro i hi
        obtain ⟨r, hr, hfile⟩ := h.held i hi
        have hlt := (List.getElem?_eq_some_iff.mp hr).1
        exact ⟨r, (List.getElem?_append_left hlt).trans hr, hfile⟩
      rintro i (hi | ⟨g, hg, hi⟩)
      · rcases hrefs i hi with hmem | ⟨hge, hlt⟩
        · exact hkeep i (.inl (h.current.symm ▸ hmem))
        · rcases hat i with hsame | ⟨-, -, t, -, ht⟩
          · have hnone : p.objects[i]? = none := List.getElem?_eq_none hge
            rw [hnone, List.getElem?_eq_none_iff, List.length_append, List.length_map] at hsame
            omega
          · exact ⟨_, ht, rfl⟩
      · exact hkeep i (.inr ⟨g, hg, hi⟩)
    memory := by
      obtain ⟨hactive, hmem⟩ := List.forall_mem_cons.mp h.memory
      exact List.forall_mem_cons.mpr ⟨hactive, fun m hm => hmem m (himm hm)⟩
    progress := hc }

/-- The tables that no reader of `readers_` is for. -/
def lacking (p : Process) (ts : List TableMeta) : List TableMeta :=
  ts.filter (fun t => (p.readerOf t).isNone)

theorem lacking_cons_none {t : TableMeta} (h : p.readerOf t = none) (ts : List TableMeta) :
    p.lacking (t :: ts) = t :: p.lacking ts := by
  rw [lacking, List.filter_cons, h]
  rfl

theorem lacking_cons_some {t : TableMeta} {i : ℕ} (h : p.readerOf t = some i)
    (ts : List TableMeta) : p.lacking (t :: ts) = p.lacking ts := by
  rw [lacking, List.filter_cons, h]
  rfl

theorem readerOf_eq_some {t : TableMeta} {i : ℕ} (h : p.readerOf t = some i) :
    i ∈ p.readers ∧ ∃ info, p.infoAt i = some info ∧ info.id = t.id := by
  refine ⟨List.mem_of_find?_eq_some h, ?_⟩
  have hid := List.find?_some h
  rcases hinfo : p.infoAt i with _ | info
  · rw [hinfo] at hid
    cases hid
  · rw [hinfo] at hid
    exact ⟨info, rfl, by simpa using hid⟩

theorem readerOf_eq_none {t : TableMeta} (h : p.readerOf t = none) {i : ℕ} (hi : i ∈ p.readers)
    {info : TableMeta} (hinfo : p.infoAt i = some info) : info.id ≠ t.id := by
  have hno := List.find?_eq_none.mp h i hi
  rw [hinfo] at hno
  simpa using hno

theorem Sound.readerOf (h : p.Sound) {i : ℕ} (hi : i ∈ p.readers) {info t : TableMeta}
    (hinfo : p.infoAt i = some info) (hid : info.id = t.id) : p.readerOf t = some i := by
  rcases hreader : p.readerOf t with _ | j
  · exact absurd hid (readerOf_eq_none hreader hi hinfo)
  · obtain ⟨-, other, hother, hsame⟩ := readerOf_eq_some hreader
    rw [h.eq_of_infoAt hother hinfo (hsame.trans hid.symm)]

theorem mem_removed {ids : List ℕ} {i : ℕ} (h : i ∈ p.removed ids) :
    ∃ info, p.infoAt i = some info ∧ info.id ∈ ids := by
  obtain ⟨-, hany⟩ := List.mem_filter.mp h
  rcases hinfo : p.infoAt i with _ | info
  · rw [hinfo] at hany
    cases hany
  · rw [hinfo] at hany
    exact ⟨info, rfl, by simpa using hany⟩

theorem makeReaders_objects (p : Process) (ts : List TableMeta) (objects : List TableReader) :
    (p.makeReaders ts objects).1 = objects ++ (p.lacking ts).map p.newReader := by
  induction ts generalizing objects with
  | nil => exact (List.append_nil objects).symm
  | cons t ts ih =>
    rw [makeReaders]
    rcases hreader : p.readerOf t with _ | i
    · rw [lacking_cons_none hreader]
      dsimp only
      rw [ih, List.append_assoc]
      rfl
    · rw [lacking_cons_some hreader]
      exact ih objects

theorem mem_makeReaders {ts : List TableMeta} {objects : List TableReader} {i : ℕ} :
    i ∈ (p.makeReaders ts objects).2 ↔ (∃ t ∈ ts, p.readerOf t = some i) ∨
      (objects.length ≤ i ∧ i < objects.length + (p.lacking ts).length) := by
  induction ts generalizing objects with
  | nil =>
    rw [makeReaders, lacking, List.filter_nil, List.length_nil]
    simp
  | cons t ts ih =>
    rw [makeReaders, List.exists_mem_cons_iff]
    rcases hreader : p.readerOf t with _ | j
    · rw [lacking_cons_none hreader, List.length_cons]
      dsimp only
      rw [List.mem_cons, ih, List.length_append, List.length_singleton]
      have hno : ¬ none = some i := nofun
      rw [or_iff_right hno]
      constructor
      · rintro (rfl | h | h)
        · exact .inr (by omega)
        · exact .inl h
        · exact .inr (by omega)
      · rintro (h | h)
        · exact .inr (.inl h)
        · rcases Nat.eq_or_lt_of_le h.1 with heq | hlt
          · exact .inl heq.symm
          · exact .inr (.inr (by omega))
    · rw [lacking_cons_some hreader]
      dsimp only
      rw [List.mem_cons, ih, Option.some.injEq, or_assoc, eq_comm]

/-- What `save` leaves: the manifest in memory, and perhaps on file. -/
theorem save_cases (fault : Option SaveFault) (m : Manifest) (p : Process) :
    (∃ e, p.save fault m = ({ p with manifest := m }, .error e)) ∨
      p.save fault m = ({ p with manifest := m, stored := some m }, .ok ()) := by
  unfold save
  split
  · cases fault with
    | none => exact .inr rfl
    | some f => exact .inl ⟨_, rfl⟩
  · exact .inl ⟨_, rfl⟩

theorem Sound.addTable (h : p.Sound) {info : TableMeta} (hid : info.id = p.manifest.nextSstId)
    (hfile : (p.files.find? info.id).isSome) : Edits p (some info) (p.manifest.addTable info) where
  once := by
    refine List.nodup_cons.mpr ⟨fun hmem => ?_, h.listedOnce⟩
    exact absurd (h.lt_of_listed hmem) (by rw [← hid]; exact lt_irrefl _)
  next := le_max_left _ _
  from_ := by
    intro t ht
    rcases List.mem_cons.mp ht with rfl | ht
    · exact .inr rfl
    · exact .inl ht
  free := by
    rintro t ⟨⟩
    exact ⟨hid, Nat.lt_of_succ_le (le_max_right _ _), hfile⟩

theorem Sound.publishFlush (h : p.Sound) (fault : Option SaveFault) {info : TableMeta}
    (hid : info.id = p.manifest.nextSstId) (hfile : (p.files.find? info.id).isSome) :
    (p.publishFlush fault info).Sound := by
  have he := h.addTable hid hfile
  rw [Process.publishFlush]
  rcases save_cases fault (p.manifest.addTable info) (p.record (some info)) with ⟨e, hsave⟩ | hsave
  · rw [hsave]
    exact h.edit he (.inl rfl)
  · rw [hsave]
    have hedit := h.edit he (.inr rfl)
    refine hedit.follow [info] (List.singleton_sublist.mpr List.mem_cons_self) ?_ ?_ ?_ ?_
      (List.dropLast_subset _) trivial
    · intro t ht i other hi heq
      obtain rfl := List.mem_singleton.mp ht
      have hlt := h.lt_of_infoAt hi
      omega
    · intro i hi
      rcases List.mem_cons.mp hi with rfl | hi
      · exact .inr ⟨le_rfl, Nat.lt_succ_self _⟩
      · exact .inl hi
    · exact fun i other hi hlisted => List.mem_cons_of_mem _ (hedit.kept i other hi hlisted)
    · intro i hge hlt
      obtain rfl : i = p.objects.length := Nat.le_antisymm (Nat.le_of_lt_succ hlt) hge
      exact List.mem_cons_self

theorem mem_applyCompaction {sort : TableSort} {ids : List ℕ} {t : TableMeta}
    (ht : t ∈ (m.applyCompaction sort ids added).tables) :
    (t ∈ m.tables ∧ t.id ∉ ids) ∨ t ∈ added := by
  rcases List.mem_append.mp (sort.mem_run.mp ht) with ht | ht
  · obtain ⟨hmem, hids⟩ := List.mem_filter.mp ht
    exact .inl ⟨hmem, by simpa using hids⟩
  · exact .inr (Option.mem_toList.mp ht)

theorem Sound.applyCompaction (h : p.Sound) {sort : TableSort} {ids : List ℕ}
    (hadded : ∀ t ∈ added, t.id = p.manifest.nextSstId ∧ (p.files.find? t.id).isSome) :
    Edits p added (p.manifest.applyCompaction sort ids added) where
  once := by
    have hperm := (sort.perm (p.manifest.tables.filter (fun t => t.id ∉ ids) ++ added.toList)).map
      TableMeta.id
    refine hperm.nodup_iff.mpr ?_
    rw [List.map_append, List.nodup_append]
    refine ⟨(List.filter_sublist.map _).nodup h.listedOnce, ?_, ?_⟩
    · cases added <;> simp
    · rintro a ha b hb rfl
      obtain ⟨t, ht, rfl⟩ := List.mem_map.mp ha
      obtain ⟨u, hu, hid⟩ := List.mem_map.mp hb
      have hlt := h.lt_of_listed (List.mem_map_of_mem (List.mem_of_mem_filter ht))
      have hnext := (hadded u (Option.mem_toList.mp hu)).1
      omega
  next := by
    cases added with
    | none => exact le_rfl
    | some t => exact le_max_left _ _
  from_ := by
    intro t ht
    rcases mem_applyCompaction ht with ⟨ht, -⟩ | ht
    · exact .inl ht
    · exact .inr ht
  free := by
    rintro t ⟨⟩
    obtain ⟨hid, hfile⟩ := hadded t rfl
    exact ⟨hid, Nat.lt_of_succ_le (le_max_right _ _), hfile⟩

theorem Sound.publishCompaction (h : p.Sound) (fault : Option SaveFault) {ids : List ℕ}
    (hadded : ∀ t ∈ added, t.id = p.manifest.nextSstId ∧ (p.files.find? t.id).isSome) :
    (p.publishCompaction fault ids added).Sound := by
  have he : Edits p added (p.manifest.applyCompaction p.config.sort ids added) :=
    h.applyCompaction hadded
  rw [Process.publishCompaction]
  rcases save_cases fault (p.manifest.applyCompaction p.config.sort ids added)
    (p.record added) with ⟨e, hsave⟩ | hsave
  · rw [hsave]
    exact h.edit he (.inl rfl)
  rw [hsave]
  have hedit := h.edit he (.inr rfl)
  dsimp only
  rw [makeReaders_objects]
  refine hedit.follow _ List.filter_sublist ?_ ?_ ?_ ?_ (List.Subset.refl _) ?_
  · intro t ht i info hi heq
    obtain ⟨hlisted, hnone⟩ := List.mem_filter.mp ht
    exact readerOf_eq_none (Option.isNone_iff_eq_none.mp hnone)
      (hedit.kept i info hi (heq ▸ List.mem_map_of_mem hlisted)) hi heq
  · intro i hi
    rcases mem_makeReaders.mp hi with ⟨t, ht, hreader⟩ | hnew
    · exact .inl (readerOf_eq_some hreader).1
    · exact .inr hnew
  · intro i info hi hlisted
    obtain ⟨t, ht, hid⟩ := List.mem_map.mp hlisted
    exact mem_makeReaders.mpr (.inl ⟨t, ht,
      hedit.readerOf (hedit.kept i info hi hlisted) hi hid.symm⟩)
  · exact fun i hge hlt => mem_makeReaders.mpr (.inr ⟨hge, hlt⟩)
  · intro i hi info hinfo hlisted
    obtain ⟨old, hold, hids⟩ := mem_removed hi
    obtain rfl := Option.some.inj ((infoAt_of_append rfl hold).symm.trans hinfo)
    obtain ⟨t, ht, hid⟩ := List.mem_map.mp hlisted
    rcases mem_applyCompaction ht with ⟨-, hout⟩ | ht
    · exact hout (hid ▸ hids)
    · have hlt : old.id < p.manifest.nextSstId := h.lt_of_infoAt hold
      have hnext := (hadded t ht).1
      omega

theorem Sound.publish (h : p.Sound) {fault : Option SaveFault}
    (hstep : p.publish fault = some p') : p'.Sound := by
  have hprogress := h.progress
  rw [Process.publish] at hstep
  split at hstep
  · rename_i info hcreator
    rw [InProgress, hcreator] at hprogress
    obtain rfl := Option.some.inj hstep
    exact h.publishFlush fault hprogress.1 hprogress.2
  · rename_i ids added hcreator
    rw [InProgress, hcreator] at hprogress
    obtain rfl := Option.some.inj hstep
    refine h.publishCompaction fault ?_
    rintro t ⟨⟩
    exact hprogress
  · cases hstep

/-! ## One step -/

theorem Sound.consult (h : p.Sound) {i : ℕ} (hstep : p.consult true i = some p') : p'.Sound := by
  obtain ⟨g, hg, rfl⟩ := Option.map_eq_some_iff.mp hstep
  rcases hspot : g.spot with _ | rest | rest
  · dsimp only
    split
    · exact h.answer _ _ _
    · exact h.resume hg nofun
  · rcases rest with _ | ⟨m, rest⟩
    · refine h.resume hg ?_
      rintro rest ⟨⟩
      exact List.Subset.refl _
    · dsimp only
      split
      · exact h.answer _ _ _
      · exact h.resume hg nofun
  · rcases rest with _ | ⟨t, rest⟩
    · exact h.answer _ _ _
    have hsub := h.places g (List.mem_of_getElem? hg) _ hspot
    obtain ⟨r, objects, cache, -, -, hout, hfill⟩ := h.consultTable
      (.inr ⟨g, List.mem_of_getElem? hg, hsub List.mem_cons_self⟩) g.key
    dsimp only
    rw [hout]
    rcases Sst.plainGet (p.files.find? r.info.id) r.info g.key with f | _ | hit
    · exact hfill.answer _ _ _
    · refine hfill.resume hg ?_
      rintro rest ⟨⟩
      exact List.subset_of_cons_subset hsub
    · exact hfill.answer _ _ _

theorem Sound.step (h : p.Sound) {a : Act} (hstep : p.step true a = some p') : p'.Sound := by
  cases a with
  | apply r =>
    rw [Process.step, Process.apply] at hstep
    split at hstep
    · rename_i hr
      obtain rfl := Option.some.inj hstep
      exact h.applyRecord hr
    · cases hstep
  | rotate => exact h.rotate hstep
  | flush => exact h.flush hstep
  | compact inputs => exact h.compact hstep
  | merge now => exact h.merge hstep
  | name => exact h.name hstep
  | place throws now => exact h.place hstep
  | cancel => exact h.cancel hstep
  | publish fault => exact h.publish hstep
  | nextInput => exact h.nextInput hstep
  | unlink => exact h.unlink hstep
  | evict i =>
    obtain rfl := Option.some.inj hstep
    exact h.evict i
  | load key => exact h.load hstep
  | consult i => exact h.consult hstep

end
end Process
end LsmKv
