import LsmKv.ProcessPublish

/-!
# Caching is invisible

Every run of processes with the block cache and pinned indexes and filters answers its gets as
the same run without them does. The two go on side by side: they differ in what the readers have
loaded and in the cache, and nothing but the answer of a table depends on either.
-/

namespace LsmKv
open Sst (TableMeta TableReader BlockCache Fault ReadContext)
open OrderedMap

namespace Process

/-! ## A process at its start -/

section
variable {p p' q : Process}

theorem openReaders_eq_ok {files : OrderedMap ℕ Bytes} {cache_index_blocks : Bool}
    {ts : List TableMeta} {objects : List TableReader}
    (hw : ∀ id file, files.find? id = some file → Sst.Written file)
    (h : openReaders files cache_index_blocks ts = .ok objects) :
    objects.map (·.info) = ts ∧ ∀ r ∈ objects, r.fileOpen = false ∧
      ∃ file, files.find? r.info.id = some file ∧ Sst.Mirrors file r.info r := by
  induction ts generalizing objects with
  | nil =>
    obtain rfl := Except.ok.inj h
    exact ⟨rfl, fun _ hr => nomatch hr⟩
  | cons t ts ih =>
    rw [openReaders] at h
    rcases hfile : files.find? t.id with _ | file
    · rw [hfile] at h
      cases h
    rw [hfile] at h
    dsimp only at h
    rcases hcheck : (TableReader.created file t cache_index_blocks).validateFooter with
      ⟨r, e | u⟩
    · rw [hcheck] at h
      cases h
    rw [hcheck] at h
    rcases hrest : openReaders files cache_index_blocks ts with e | rs
    · rw [hrest] at h
      cases h
    rw [hrest] at h
    obtain rfl := Except.ok.inj h
    obtain ⟨hinfos, hreaders⟩ := ih hrest
    obtain ⟨hmirrors, hclosed⟩ := Sst.mirrors_validated (hw t.id file hfile).sectioned hcheck
    have htable := hmirrors.table
    refine ⟨?_, List.forall_mem_cons.mpr ⟨⟨hclosed, file, ?_, ?_⟩, hreaders⟩⟩
    · rw [List.map_cons, hinfos, htable]
    · rw [htable, hfile]
    · rw [htable]
      exact hmirrors

theorem nodup_restore (sort : TableSort) {stored : Option Manifest}
    (h : ∀ m ∈ stored, (m.tables.map (·.id)).Nodup) :
    ((Manifest.restore sort stored).tables.map (·.id)).Nodup := by
  cases stored with
  | none => exact .nil
  | some m => exact ((sort.perm m.tables).map _).nodup_iff.mpr (h m rfl)

theorem lt_restore (sort : TableSort) (stored : Option Manifest) :
    ∀ t ∈ (Manifest.restore sort stored).tables,
      t.id < (Manifest.restore sort stored).nextSstId := by
  cases stored with
  | none => exact fun _ ht => nomatch ht
  | some m => exact (le_foldl_nextId (sort.run m.tables) m.nextSstId).2

theorem Sound.replay (h : p.publishVersion.Sound) {rs : List Record}
    (hrs : ∀ r ∈ rs, accepts r = true) : (rs.foldl replayRecord p).publishVersion.Sound := by
  induction rs generalizing p with
  | nil => exact h
  | cons r rs ih =>
    obtain ⟨hr, hrs⟩ := List.forall_mem_cons.mp hrs
    have happly : (p.applyRecord r).publishVersion.Sound := h.applyRecord hr
    refine ih ?_ hrs
    rw [replayRecord]
    split
    · exact happly.freeze.look rfl (fun g hg => happly.get hg)
    · exact happly

theorem objects_replay (p : Process) (rs : List Record) :
    (rs.foldl replayRecord p).objects = p.objects := by
  induction rs generalizing p with
  | nil => rfl
  | cons r rs ih =>
    rw [List.foldl_cons, ih, replayRecord]
    split <;> rfl

/-- What `open` finds in order is in order, and no file is open yet. -/
theorem sound_open {config : Config} {cache_index_blocks : Bool} {capacity : ℕ}
    {rs : List Record} {stored : Option Manifest} {files : OrderedMap ℕ Bytes}
    (hs : ∀ m ∈ stored, (m.tables.map (·.id)).Nodup)
    (hw : ∀ id file, files.find? id = some file → Sst.Written file)
    (hrs : ∀ r ∈ rs, accepts r = true)
    (h : Process.open config cache_index_blocks capacity rs stored files = .ok p) :
    p.Sound ∧ ∀ r ∈ p.objects, r.fileOpen = false := by
  rw [Process.open] at h
  split at h
  · cases h
  rename_i m hload
  obtain rfl := restore_of_loadOrCreate hload
  dsimp only at h
  split at h
  · cases h
  rename_i objects hopen
  obtain rfl := Except.ok.inj h
  have hwritten : ∀ id file, (files.filter (fun id _ =>
      (Manifest.restore config.sort stored).tables.any (fun t => t.id = id))).find? id =
        some file → Sst.Written file := by
    intro id file hfile
    rw [find?_filter, Option.filter_eq_some_iff] at hfile
    exact hw id file hfile.1
  have hids := nodup_restore config.sort hs
  have hlt := lt_restore config.sort stored
  generalize Manifest.restore config.sort stored = m at hopen hwritten hids hlt ⊢
  generalize files.filter (fun id _ => m.tables.any (fun t => t.id = id)) = files
    at hopen hwritten ⊢
  obtain ⟨hinfos, hreaders⟩ := openReaders_eq_ok hwritten hopen
  have hstored : ∀ t ∈ m.tables, files.find? t.id = some ((files.find? t.id).getD []) := by
    intro t ht
    obtain ⟨r, hr, rfl⟩ := List.mem_map.mp (hinfos ▸ ht)
    obtain ⟨-, file, hfile, -⟩ := hreaders r hr
    rw [hfile]
    rfl
  have hlisted : ∀ r ∈ objects, r.info ∈ m.tables := fun r hr => hinfos ▸ List.mem_map_of_mem hr
  refine ⟨Sound.replay ?_ hrs, fun r hr => (hreaders r ?_).1⟩
  · exact {
      written := hwritten
      ids := by
        show ((m.tables.map _).map _).Nodup
        rw [List.map_map]
        exact hids
      fresh := by
        intro u hu
        obtain ⟨t, ht, rfl⟩ := List.mem_map.mp hu
        exact hlt t ht
      sections := by
        intro u hu
        obtain ⟨t, ht, rfl⟩ := List.mem_map.mp hu
        exact (hwritten t.id _ (hstored t ht)).sectioned
      intact := by
        intro u hu file hfile
        obtain ⟨t, ht, rfl⟩ := List.mem_map.mp hu
        exact Option.some.inj (hfile.symm.trans (hstored t ht))
      listedOnce := hids
      listed := fun t ht => ⟨_, List.mem_map_of_mem ht, rfl, hstored t ht⟩
      stored := hs
      mirrors := by
        intro r hr
        obtain ⟨-, file, hfile, hm⟩ := hreaders r hr
        refine ⟨_, List.mem_map_of_mem (hlisted r hr), ?_⟩
        rw [hfile]
        exact hm
      objectIds := by
        have hmap := congrArg (List.map TableMeta.id) hinfos
        rw [List.map_map] at hmap
        show (objects.map (TableMeta.id ∘ TableReader.info)).Nodup
        rw [hmap]
        exact hids
      kept := by
        rintro i info hi -
        obtain ⟨r, hr, -⟩ := infoAt_eq_some.mp hi
        exact List.mem_range.mpr (List.getElem?_eq_some_iff.mp hr).1
      current := rfl
      held := by
        rintro i (hi | ⟨g, hg, -⟩)
        · have hat := List.getElem?_eq_getElem (List.mem_range.mp hi)
          obtain ⟨-, file, hfile, hm⟩ := hreaders _ (List.mem_of_getElem? hat)
          exact ⟨_, hat, hfile.trans hm.content.symm⟩
        · cases hg
      places := nofun
      cached := nofun
      memory := by
        intro mem hmem
        obtain rfl := List.mem_singleton.mp hmem
        exact fits_fresh _
      progress := trivial }
  · rw [publishVersion, objects_replay] at hr
    exact hr

/-! ## The same steps without caches -/

/-- The process with other readers and another cache. -/
def refit (objects : List TableReader) (cache : BlockCache) (p : Process) : Process :=
  { p with objects := objects, cache := cache }

/-- The same process but for what readers have loaded and the cache holds; `q` has no file
open. -/
def Alike (p q : Process) : Prop :=
  ∃ objects cache, q = p.refit objects cache ∧ objects.map (·.info) = p.objects.map (·.info) ∧
    ∀ r ∈ objects, r.fileOpen = false

/-- A step of the process that depends on no more of its readers than their tables. -/
def Blind (f : Process → Option Process) : Prop :=
  ∀ objects cache p, objects.map (·.info) = p.objects.map (·.info) →
    f (p.refit objects cache) = (f p).map (refit objects cache)

@[simp] theorem creator_refit (objects : List TableReader) (cache : BlockCache) (p : Process) :
    (p.refit objects cache).creator = p.creator := rfl

theorem Blind.alike {f : Process → Option Process} (hf : Blind f) (h : Alike p q)
    (hstep : f p = some p') : ∃ q', f q = some q' ∧ Alike p' q' := by
  obtain ⟨objects, cache, rfl, hinfos, hclosed⟩ := h
  have hsame : p' = p'.refit p.objects p.cache := by
    have hself := hf p.objects p.cache p rfl
    rw [show p.refit p.objects p.cache = p from rfl, hstep] at hself
    exact Option.some.inj hself
  refine ⟨p'.refit objects cache, ?_, objects, cache, rfl, ?_, hclosed⟩
  · rw [hf objects cache p hinfos, hstep]
    rfl
  · rw [hinfos, hsame]
    rfl

theorem blind_apply (r : Record) : Blind (apply r) := by
  intro objects cache p _
  rw [apply, apply]
  split <;> rfl

theorem blind_rotate : Blind rotate := by
  intro objects cache p _
  have hrotates : (p.refit objects cache).rotates = p.rotates := rfl
  rw [rotate, rotate, hrotates]
  split <;> rfl

theorem blind_flush : Blind flush := by
  intro objects cache p _
  have himmutables : (p.refit objects cache).immutables = p.immutables := rfl
  rw [flush, flush, creator_refit, himmutables]
  cases p.creator with
  | idle => cases p.immutables.getLast? <;> rfl
  | _ => rfl

theorem blind_compact (inputs : Option (List ℕ)) : Blind (compact inputs) := by
  intro objects cache p _
  have hchoose : (p.refit objects cache).chooseInputs inputs = p.chooseInputs inputs := rfl
  rw [compact, compact, creator_refit, hchoose]
  cases p.creator with
  | idle => cases p.chooseInputs inputs <;> rfl
  | _ => rfl

theorem blind_merge (now : ℕ) : Blind (merge now) := by
  intro objects cache p _
  have hmerge : ∀ live ids, (p.refit objects cache).mergeInputs live ids now =
      p.mergeInputs live ids now := fun _ _ => rfl
  rw [merge, merge, creator_refit]
  cases p.creator with
  | chosen live ids =>
    dsimp only
    rw [hmerge]
    cases p.mergeInputs live ids now with
    | error f => rfl
    | ok final =>
      dsimp only
      split <;> rfl
  | _ => rfl

theorem blind_name : Blind name := by
  intro objects cache p _
  rw [name, name, creator_refit]
  cases p.creator <;> rfl

theorem blind_place (throws : Bool) (now : ℕ) : Blind (place throws now) := by
  intro objects cache p _
  have hconfig : (p.refit objects cache).config = p.config := rfl
  rw [place, place, creator_refit, hconfig]
  cases p.creator with
  | named job mem id =>
    dsimp only
    rcases Sst.writeSstable id mem (p.config.sst mem.entries) with e | ⟨r, file⟩
    · cases e <;> rfl
    · dsimp only
      split <;> rfl
  | _ => rfl

theorem blind_cancel : Blind cancel := by
  intro objects cache p _
  rw [cancel, cancel, creator_refit]
  rcases p.creator with _ | _ | _ | _ | ⟨_ | ids, _ | info⟩ | _ | _ <;> rfl

theorem blind_nextInput : Blind nextInput := by
  intro objects cache p _
  have hreferenced : ∀ i, (p.refit objects cache).referenced i = p.referenced i := fun _ => rfl
  rw [nextInput, nextInput, creator_refit]
  cases p.creator with
  | deleting rs => cases rs with
    | nil => rfl
    | cons i rs =>
      dsimp only
      rw [hreferenced]
      split <;> rfl
  | _ => rfl

theorem blind_unlink : Blind unlink := by
  intro objects cache p hinfos
  have hinfo : ∀ i, (p.refit objects cache).infoAt i = p.infoAt i := infoAt_of_map hinfos
  rw [unlink, unlink, creator_refit]
  cases p.creator with
  | unlinking i rs =>
    dsimp only
    rw [hinfo]
    rfl
  | _ => rfl

theorem blind_load (key : Bytes) : Blind (load key) := by
  intro objects cache p _
  rw [load, load]
  split <;> rfl

theorem evict_alike (h : Alike p q) (i : ℕ) : Alike (p.evict i) (q.evict i) := by
  obtain ⟨objects, cache, rfl, hinfos, hclosed⟩ := h
  refine ⟨objects.modify i (fun r => { r with fileOpen := false }), cache, rfl, ?_, fun r hr => ?_⟩
  · rw [infos_modify, evict, infos_modify, hinfos]
  · obtain ⟨j, hj⟩ := List.getElem?_of_mem hr
    rw [List.getElem?_modify] at hj
    obtain ⟨r₀, hr₀, rfl⟩ := Option.map_eq_some_iff.mp hj
    split
    · rfl
    · exact hclosed r₀ (List.mem_of_getElem? hr₀)

section
variable {objects : List TableReader} (hinfos : objects.map (·.info) = p.objects.map (·.info))
  (cache : BlockCache)
include hinfos

theorem infoAt_refit (i : ℕ) : (p.refit objects cache).infoAt i = p.infoAt i :=
  infoAt_of_map hinfos i

theorem readerOf_refit (t : TableMeta) : (p.refit objects cache).readerOf t = p.readerOf t := by
  simp only [readerOf, infoAt_refit hinfos]
  rfl

theorem removed_refit (ids : List ℕ) : (p.refit objects cache).removed ids = p.removed ids := by
  simp only [removed, infoAt_refit hinfos]
  rfl

theorem lacking_refit (ts : List TableMeta) :
    (p.refit objects cache).lacking ts = p.lacking ts := by
  simp only [lacking, readerOf_refit hinfos]

theorem makeReaders_refit (ts : List TableMeta) {made made' : List TableReader}
    (hlen : made.length = made'.length) :
    ((p.refit objects cache).makeReaders ts made).2 = (p.makeReaders ts made').2 := by
  induction ts generalizing made made' with
  | nil => rfl
  | cons t ts ih =>
    rw [makeReaders, makeReaders, readerOf_refit hinfos]
    rcases p.readerOf t with _ | i
    · dsimp only
      rw [hlen, ih]
      rw [List.length_append, List.length_append, hlen]
      rfl
    · exact congrArg (List.cons i) (ih hlen)

end

theorem save_refit (fault : Option SaveFault) (m : Manifest) (objects : List TableReader)
    (cache : BlockCache) (p : Process) : (p.refit objects cache).save fault m =
      ((p.save fault m).1.refit objects cache, (p.save fault m).2) := by
  have hutf8 : (p.refit objects cache).config.isUtf8 = p.config.isUtf8 := rfl
  unfold save
  rw [hutf8]
  split
  · cases fault <;> rfl
  · rfl

/-- Readers made alike keep the two processes alike. -/
theorem closed_append {objects : List TableReader} (h : ∀ r ∈ objects, r.fileOpen = false)
    (p : Process) (ts : List TableMeta) :
    ∀ r ∈ objects ++ ts.map p.newReader, r.fileOpen = false := by
  intro r hr
  rcases List.mem_append.mp hr with hr | hr
  · exact h r hr
  · obtain ⟨t, -, rfl⟩ := List.mem_map.mp hr
    rfl

theorem infos_append {objects : List TableReader}
    (h : objects.map (·.info) = p.objects.map (·.info)) (news : List TableReader) :
    (objects ++ news).map (·.info) = (p.objects ++ news).map (·.info) := by
  rw [List.map_append, h, List.map_append]

theorem length_of_infos {objects : List TableReader}
    (h : objects.map (·.info) = p.objects.map (·.info)) : objects.length = p.objects.length := by
  rw [← List.length_map (·.info), h, List.length_map]

/-- The readers of a new manifest are made alike. -/
theorem follow_alike {objects : List TableReader}
    (hinfos : objects.map (·.info) = p.objects.map (·.info)) (cache : BlockCache)
    (hclosed : ∀ r ∈ objects, r.fileOpen = false) (ids : List ℕ) :
    Alike
      { p with
        objects := (p.makeReaders p.manifest.tables p.objects).1
        readers := (p.makeReaders p.manifest.tables p.objects).2
        creator := .deleting (p.removed ids) }.publishVersion
      { p.refit objects cache with
        objects := ((p.refit objects cache).makeReaders p.manifest.tables objects).1
        readers := ((p.refit objects cache).makeReaders p.manifest.tables objects).2
        creator := .deleting ((p.refit objects cache).removed ids) }.publishVersion := by
  rw [makeReaders_objects, makeReaders_objects, lacking_refit hinfos, removed_refit hinfos,
    makeReaders_refit hinfos cache _ (length_of_infos hinfos)]
  exact ⟨_, cache, rfl, infos_append hinfos _, closed_append hclosed p _⟩

theorem publishFlush_alike (fault : Option SaveFault) (info : TableMeta) (h : Alike p q) :
    Alike (p.publishFlush fault info) (q.publishFlush fault info) := by
  obtain ⟨objects, cache, rfl, hinfos, hclosed⟩ := h
  have hrecord : (p.refit objects cache).record (some info) =
    (p.record (some info)).refit objects cache := rfl
  have hm : (p.refit objects cache).manifest = p.manifest := rfl
  rw [publishFlush, publishFlush, hrecord, save_refit, hm]
  rcases save_cases fault (p.manifest.addTable info) (p.record (some info)) with ⟨e, hsave⟩ | hsave
  · rw [hsave]
    exact ⟨objects, cache, rfl, hinfos, hclosed⟩
  · rw [hsave]
    refine ⟨objects ++ [p.newReader info], cache, ?_, infos_append hinfos _,
      closed_append hclosed p [info]⟩
    simp only [refit, publishVersion, record, newReader, length_of_infos hinfos]

theorem publishCompaction_alike (fault : Option SaveFault) (ids : List ℕ)
    (added : Option TableMeta) (h : Alike p q) :
    Alike (p.publishCompaction fault ids added) (q.publishCompaction fault ids added) := by
  obtain ⟨objects, cache, rfl, hinfos, hclosed⟩ := h
  have hrecord : (p.refit objects cache).record added = (p.record added).refit objects cache := rfl
  have hm : (p.refit objects cache).manifest = p.manifest := rfl
  have hsort : (p.refit objects cache).config.sort = p.config.sort := rfl
  rw [publishCompaction, publishCompaction, hrecord, save_refit, hm, hsort]
  rcases save_cases fault (p.manifest.applyCompaction p.config.sort ids added)
    (p.record added) with ⟨e, hsave⟩ | hsave
  · rw [hsave]
    exact ⟨objects, cache, rfl, hinfos, hclosed⟩
  · rw [hsave]
    let m := p.manifest.applyCompaction p.config.sort ids added
    exact follow_alike (p := { p.record added with manifest := m, stored := some m }) hinfos cache
      hclosed ids

theorem publish_alike {fault : Option SaveFault} (h : Alike p q)
    (hstep : p.publish fault = some p') : ∃ q', q.publish fault = some q' ∧ Alike p' q' := by
  have hcreator : q.creator = p.creator := by
    obtain ⟨objects, cache, rfl, -, -⟩ := h
    rfl
  rw [publish] at hstep ⊢
  rw [hcreator]
  split at hstep
  · obtain rfl := Option.some.inj hstep
    exact ⟨_, rfl, publishFlush_alike fault _ h⟩
  · obtain rfl := Option.some.inj hstep
    exact ⟨_, rfl, publishCompaction_alike fault _ _ h⟩
  · cases hstep

theorem Sound.consult_alike (hs : p.Sound) (h : Alike p q) {i : ℕ}
    (hstep : p.consult true i = some p') : ∃ q', q.consult false i = some q' ∧ Alike p' q' := by
  obtain ⟨objects, cache, rfl, hinfos, hclosed⟩ := h
  obtain ⟨g, hg, rfl⟩ := Option.map_eq_some_iff.mp hstep
  rw [Process.consult, show (p.refit objects cache).gets = p.gets from rfl, hg, Option.map_some]
  refine ⟨_, rfl, ?_⟩
  rcases hspot : g.spot with _ | rest | rest
  · dsimp only
    rw [show (p.refit objects cache).active = p.active from rfl]
    split
    · exact ⟨objects, cache, rfl, hinfos, hclosed⟩
    · exact ⟨objects, cache, rfl, hinfos, hclosed⟩
  · rcases rest with _ | ⟨m, rest⟩
    · exact ⟨objects, cache, rfl, hinfos, hclosed⟩
    · dsimp only
      split
      · exact ⟨objects, cache, rfl, hinfos, hclosed⟩
      · exact ⟨objects, cache, rfl, hinfos, hclosed⟩
  · rcases rest with _ | ⟨t, rest⟩
    · exact ⟨objects, cache, rfl, hinfos, hclosed⟩
    have hsub := hs.places g (List.mem_of_getElem? hg) _ hspot
    obtain ⟨r, objects', cache', hr, hinfos', hout, -⟩ := hs.consultTable
      (.inr ⟨g, List.mem_of_getElem? hg, hsub List.mem_cons_self⟩) g.key
    have hplain : (p.refit objects cache).consultTable false g.key t =
        (p.refit objects cache, Sst.plainGet (p.files.find? r.info.id) r.info g.key) := by
      obtain ⟨r', hr', hsame⟩ := Option.map_eq_some_iff.mp
        ((infoAt_of_map hinfos t).trans (infoAt_eq_some.mpr ⟨r, hr, rfl⟩))
      rw [Process.consultTable, show (p.refit objects cache).objects = objects from rfl, hr']
      dsimp only
      rw [hclosed r' (List.mem_of_getElem? hr'), hsame]
      rfl
    dsimp only
    rw [hout, hplain]
    have hlike : objects.map (·.info) = objects'.map (·.info) := hinfos.trans hinfos'.symm
    rcases Sst.plainGet (p.files.find? r.info.id) r.info g.key with f | _ | hit
    · exact ⟨objects, cache, rfl, hlike, hclosed⟩
    · exact ⟨objects, cache, rfl, hlike, hclosed⟩
    · exact ⟨objects, cache, rfl, hlike, hclosed⟩

/-- Whatever one process does, the other can do as well. -/
theorem Sound.step_alike (hs : p.Sound) (h : Alike p q) {a : Act}
    (hstep : p.step true a = some p') : ∃ q', q.step false a = some q' ∧ Alike p' q' := by
  cases a with
  | apply r => exact (blind_apply r).alike h hstep
  | rotate => exact blind_rotate.alike h hstep
  | flush => exact blind_flush.alike h hstep
  | compact inputs => exact (blind_compact inputs).alike h hstep
  | merge now => exact (blind_merge now).alike h hstep
  | name => exact blind_name.alike h hstep
  | place throws now => exact (blind_place throws now).alike h hstep
  | cancel => exact blind_cancel.alike h hstep
  | publish fault => exact publish_alike h hstep
  | nextInput => exact blind_nextInput.alike h hstep
  | unlink => exact blind_unlink.alike h hstep
  | evict i =>
    obtain rfl := Option.some.inj hstep
    exact ⟨_, rfl, evict_alike h i⟩
  | load key => exact (blind_load key).alike h hstep
  | consult i => exact hs.consult_alike h hstep

end
end Process

/-! ## Runs -/

namespace Site

/-- A directory at rest keeps ids that are used once, and files that `write_sstable` wrote. -/
def Sound : Site → Prop
  | .down stored files => (∀ m ∈ stored, (m.tables.map (·.id)).Nodup) ∧
      ∀ id file, files.find? id = some file → Sst.Written file
  | .up p => p.Sound

/-- The same directory, or processes that differ only in what readers and cache hold. -/
inductive Alike : Site → Site → Prop
  | down (stored : Option Manifest) (files : OrderedMap ℕ Bytes) :
      Alike (.down stored files) (.down stored files)
  | up {p q : Process} (h : p.Alike q) : Alike (.up p) (.up q)

theorem sound_empty : Sound (.down none ∅) := ⟨nofun, nofun⟩

theorem Sound.step {s t s' : Site} (hs : s.Sound) (h : Alike s t) {e : Event}
    (hstep : s.step true e = some s') :
    s'.Sound ∧ ∃ t', t.step false e = some t' ∧ Alike s' t' := by
  cases h with
  | down stored files =>
    cases e with
    | start config cache_index_blocks capacity rs =>
      rw [Site.step] at hstep ⊢
      split at hstep
      · rename_i hrs
        rcases hopen : Process.open config cache_index_blocks capacity rs stored files with x | p
        · rw [hopen] at hstep
          obtain rfl := Option.some.inj hstep
          exact ⟨hs, _, if_pos hrs, .down stored files⟩
        · rw [hopen] at hstep
          obtain rfl := Option.some.inj hstep
          obtain ⟨hsound, hclosed⟩ := Process.sound_open hs.1 hs.2 (by simpa using hrs) hopen
          exact ⟨hsound, _, if_pos hrs, .up ⟨p.objects, p.cache, rfl, rfl, hclosed⟩⟩
      · cases hstep
    | lose keep =>
      obtain rfl := Option.some.inj hstep
      refine ⟨⟨hs.1, fun id file hfile => ?_⟩, _, rfl, .down _ _⟩
      rw [find?_filter, Option.filter_eq_some_iff] at hfile
      exact hs.2 id file hfile.1
    | act a => cases hstep
    | stop => cases hstep
  | up h =>
    rename_i p q
    cases e with
    | act a =>
      obtain ⟨p', hp, rfl⟩ := Option.map_eq_some_iff.mp hstep
      have hsound : p.Sound := hs
      obtain ⟨q', hq, hlike⟩ := hsound.step_alike h hp
      exact ⟨hsound.step hp, .up q', by rw [Site.step, hq]; rfl, .up hlike⟩
    | stop =>
      obtain rfl := Option.some.inj hstep
      have hsound : p.Sound := hs
      obtain ⟨objects, cache, rfl, -, -⟩ := h
      exact ⟨⟨hsound.stored, hsound.written⟩, _, rfl, .down _ _⟩
    | start config cache_index_blocks capacity rs => cases hstep
    | lose keep => cases hstep

theorem Sound.performAll {events : List Event} {s t s' : Site} (hs : s.Sound) (h : Alike s t)
    (hrun : s.performAll true events = some s') :
    s'.Sound ∧ ∃ t', t.performAll false events = some t' ∧ Alike s' t' := by
  induction events generalizing s t with
  | nil =>
    obtain rfl := Option.some.inj hrun
    exact ⟨hs, t, rfl, h⟩
  | cons e events ih =>
    obtain ⟨s₁, hstep, hrest⟩ := Option.bind_eq_some_iff.mp hrun
    obtain ⟨hs₁, t₁, hstep', h₁⟩ := hs.step h hstep
    obtain ⟨hs', t', hrest', h'⟩ := ih hs₁ h₁ hrest
    exact ⟨hs', t', Option.bind_eq_some_iff.mpr ⟨t₁, hstep', hrest'⟩, h'⟩

end Site

namespace Event

def put (key value : Bytes) (seqno : ℕ) : List Event :=
  [.act (.apply ⟨false, key, value, seqno⟩), .act .rotate]

def flush : List Event := [.act .flush, .act (.place false 0), .act (.publish none)]

def get (key : Bytes) : List Event := .act (.load key) :: List.replicate 4 (.act (.consult 0))

/-- Two tables are written, and the older one is read twice. -/
def readTwice : List Event :=
  .start (Config.small 1 4 1000) true 1000 [] :: (put [97] [1] 1 ++ flush ++
    (put [98] [2] 2 ++ flush ++ (get [97] ++ get [97])))

end Event

end LsmKv
