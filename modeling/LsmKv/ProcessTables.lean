import LsmKv.IndexableKeys

/-!
# The tables of a process

Ids are not reserved when they are handed out, and one whose output was abandoned is handed out
again. No two tables get into the manifest under one id all the same, the file of a table stays
as it was for as long as a snapshot has it, and what readers and the cache hold is what it says.
-/

namespace LsmKv
open Sst (TableMeta SstBuildResult TableReader BlockCache Fault ReadContext)
open OrderedMap WalFormat

namespace Process

/-! ## What holds of a process -/

/-- The current snapshot or one that a get holds on to has the reader. -/
def Refers (p : Process) (i : ℕ) : Prop :=
  i ∈ p.version.tables ∨ ∃ g ∈ p.gets, i ∈ g.snapshot.tables

/-- The table of the reader is off the manifest. -/
def Dropped (p : Process) (i : ℕ) : Prop :=
  ∀ info, p.infoAt i = some info → info.id ∉ p.manifest.tables.map (·.id)

/-- What a flush or a compaction relies on where it stands. -/
def InProgress (p : Process) : Prop :=
  match p.creator with
  | .idle | .chosen _ _ | .placed _ none => True
  | .merged _ final => final.Fits
  | .named _ mem id => mem.Fits ∧ id = p.manifest.nextSstId
  | .placed _ (some info) => info.id = p.manifest.nextSstId ∧ (p.files.find? info.id).isSome
  | .deleting rs => ∀ i ∈ rs, p.Dropped i
  | .unlinking i rs => ¬p.Refers i ∧ ∀ j ∈ i :: rs, p.Dropped j

/-- The tables of the manifest, the readers and the cache agree with the files, by ids that are
used once. -/
structure Sound (p : Process) : Prop where
  written : ∀ id file, p.files.find? id = some file → Sst.Written file
  ids : (p.published.map (·.info.id)).Nodup
  fresh : ∀ u ∈ p.published, u.info.id < p.manifest.nextSstId
  sections : ∀ u ∈ p.published, Sst.Sectioned u.file
  intact : ∀ u ∈ p.published, ∀ file, p.files.find? u.info.id = some file → file = u.file
  listedOnce : (p.manifest.tables.map (·.id)).Nodup
  listed : ∀ t ∈ p.manifest.tables, ∃ u ∈ p.published, u.info = t ∧
    p.files.find? t.id = some u.file
  stored : ∀ m ∈ p.stored, (m.tables.map (·.id)).Nodup
  mirrors : ∀ r ∈ p.objects, ∃ u ∈ p.published, Sst.Mirrors u.file u.info r
  objectIds : (p.objects.map (·.info.id)).Nodup
  kept : ∀ i info, p.infoAt i = some info → info.id ∈ p.manifest.tables.map (·.id) →
    i ∈ p.readers
  current : p.version.tables = p.readers
  held : ∀ i, p.Refers i → ∃ r, p.objects[i]? = some r ∧ p.files.find? r.info.id = r.file
  places : ∀ g ∈ p.gets, ∀ rest, g.spot = .tables rest → rest ⊆ g.snapshot.tables
  cached : ∀ n ∈ p.cache.lru, ∃ u ∈ p.published, u.info.id = n.1.1 ∧
    Sst.BlockAt u.file n.1.2 n.2
  memory : ∀ m ∈ p.active :: p.immutables, m.Fits
  progress : p.InProgress

section
variable {p p' : Process}

theorem referenced_iff (i : ℕ) : p.referenced i = true ↔ p.Refers i := by
  simp [referenced, Refers]

theorem InProgress.of_eq (h : p.InProgress) (hc : p'.creator = p.creator)
    (hm : p'.manifest = p.manifest) (hf : p'.files = p.files)
    (hi : ∀ i, p'.infoAt i = p.infoAt i) (hr : ∀ i, p'.Refers i → p.Refers i) :
    p'.InProgress := by
  have hd : ∀ i, p.Dropped i → p'.Dropped i := by
    intro i hdrop info hinfo
    rw [hm]
    exact hdrop info (hi i ▸ hinfo)
  rw [InProgress] at h ⊢
  rw [hc, hm, hf]
  cases hcreator : p.creator with
  | idle => trivial
  | chosen live ids => trivial
  | merged ids final =>
    rw [hcreator] at h
    exact h
  | named job mem id =>
    rw [hcreator] at h
    exact h
  | placed job added =>
    rw [hcreator] at h
    cases added with
    | none => trivial
    | some info => exact h
  | deleting rs =>
    rw [hcreator] at h
    exact fun i hmem => hd i (h i hmem)
  | unlinking r rs =>
    rw [hcreator] at h
    exact ⟨fun hrefers => h.1 (hr r hrefers), fun j hj => hd j (h.2 j hj)⟩

/-- Tables with one id are one table. -/
theorem Sound.eq_of_id (h : p.Sound) {u v : PublishedTable} (hu : u ∈ p.published)
    (hv : v ∈ p.published) (huv : u.info.id = v.info.id) : u = v :=
  List.inj_on_of_nodup_map h.ids hu hv huv

theorem Sound.lt_of_listed (h : p.Sound) {id : ℕ} (hid : id ∈ p.manifest.tables.map (·.id)) :
    id < p.manifest.nextSstId := by
  obtain ⟨t, ht, rfl⟩ := List.mem_map.mp hid
  obtain ⟨u, hu, rfl, -⟩ := h.listed t ht
  exact h.fresh u hu

theorem Sound.lt_of_object (h : p.Sound) {r : TableReader} (hr : r ∈ p.objects) :
    r.info.id < p.manifest.nextSstId := by
  obtain ⟨u, hu, hmirrors⟩ := h.mirrors r hr
  rw [hmirrors.table]
  exact h.fresh u hu

theorem infoAt_eq_some {i : ℕ} {info : TableMeta} :
    p.infoAt i = some info ↔ ∃ r, p.objects[i]? = some r ∧ r.info = info := by
  rw [infoAt, Option.map_eq_some_iff]

theorem infoAt_of_map {objects : List TableReader}
    (h : objects.map (·.info) = p.objects.map (·.info)) (i : ℕ) :
    objects[i]?.map (·.info) = p.infoAt i := by
  rw [infoAt, ← List.getElem?_map, ← List.getElem?_map, h]

theorem infoAt_of_append {more : List TableReader} (ho : p'.objects = p.objects ++ more) {i : ℕ}
    {info : TableMeta} (h : p.infoAt i = some info) : p'.infoAt i = some info := by
  obtain ⟨r, hr, rfl⟩ := infoAt_eq_some.mp h
  refine infoAt_eq_some.mpr ⟨r, ?_, rfl⟩
  rw [ho, List.getElem?_append_left (List.getElem?_eq_some_iff.mp hr).1, hr]

/-- Two readers of one table are one reader. -/
theorem Sound.eq_of_infoAt (h : p.Sound) {i j : ℕ} {a b : TableMeta} (hi : p.infoAt i = some a)
    (hj : p.infoAt j = some b) (hab : a.id = b.id) : i = j := by
  obtain ⟨r, hr, rfl⟩ := infoAt_eq_some.mp hi
  obtain ⟨r', hr', rfl⟩ := infoAt_eq_some.mp hj
  have hlt : i < (p.objects.map (·.info.id)).length := by
    rw [List.length_map]
    exact (List.getElem?_eq_some_iff.mp hr).1
  refine (List.getElem?_inj hlt h.objectIds).mp ?_
  rw [List.getElem?_map, List.getElem?_map, hr, hr']
  exact congrArg some hab

/-! ## Readers and cache fill up -/

/-- Readers may load more of their tables, and the cache may change, if they go on agreeing with
the files. -/
theorem Sound.fill (h : p.Sound) {objects : List TableReader} {cache : BlockCache}
    (hinfos : objects.map (·.info) = p.objects.map (·.info))
    (hmirrors : ∀ r ∈ objects, ∃ u ∈ p.published, Sst.Mirrors u.file u.info r)
    (hcached : ∀ n ∈ cache.lru, ∃ u ∈ p.published, u.info.id = n.1.1 ∧
      Sst.BlockAt u.file n.1.2 n.2) :
    Sound { p with objects := objects, cache := cache } := by
  have hinfo : ∀ i, infoAt i { p with objects := objects, cache := cache } = p.infoAt i :=
    infoAt_of_map hinfos
  refine { h with
    mirrors := hmirrors
    cached := hcached
    objectIds := ?_
    kept := ?_
    held := ?_
    progress := h.progress.of_eq rfl rfl rfl hinfo (fun _ hr => hr) }
  · have hids := congrArg (List.map TableMeta.id) hinfos
    rw [List.map_map, List.map_map] at hids
    show (objects.map (TableMeta.id ∘ TableReader.info)).Nodup
    rw [hids]
    exact h.objectIds
  · intro i info hi
    exact h.kept i info (hinfo i ▸ hi)
  · intro i hi
    obtain ⟨r, hr, hfile⟩ := h.held i hi
    obtain ⟨r', hr', hsame⟩ := infoAt_eq_some.mp
      ((hinfo i).trans (infoAt_eq_some.mpr ⟨r, hr, rfl⟩))
    obtain ⟨u, hu, hm⟩ := h.mirrors r (List.mem_of_getElem? hr)
    obtain ⟨v, hv, hm'⟩ := hmirrors r' (List.mem_of_getElem? hr')
    obtain rfl := h.eq_of_id hu hv (by rw [← hm.table, ← hm'.table, hsame])
    refine ⟨r', hr', ?_⟩
    rw [hsame, hm'.content, ← hm.content]
    exact hfile

theorem infos_modify (objects : List TableReader) (i : ℕ) :
    (objects.modify i (fun r => { r with fileOpen := false })).map (·.info) =
      objects.map (·.info) := by
  refine List.ext_getElem? (fun j => ?_)
  rw [List.getElem?_map, List.getElem?_map, List.getElem?_modify]
  rcases objects[j]? with _ | r
  · rfl
  · by_cases hij : i = j <;> simp [hij]

theorem Sound.evict (h : p.Sound) (i : ℕ) : (p.evict i).Sound := by
  refine h.fill (infos_modify p.objects i) (fun r hr => ?_) h.cached
  · obtain ⟨j, hj⟩ := List.getElem?_of_mem hr
    rw [List.getElem?_modify] at hj
    obtain ⟨r₀, hr₀, rfl⟩ := Option.map_eq_some_iff.mp hj
    obtain ⟨u, hu, hm⟩ := h.mirrors r₀ (List.mem_of_getElem? hr₀)
    refine ⟨u, hu, ?_⟩
    split
    · exact ⟨hm.content, hm.table, .inr rfl, fun hl => ⟨(hm.footer hl).indexOff,
        (hm.footer hl).indexSize, (hm.footer hl).filterOff, (hm.footer hl).filterSize⟩, hm.bloom,
        hm.pinned⟩
    · exact hm

/-- A table consulted through a reader that a snapshot has answers as its file does. -/
theorem Sound.consultTable (h : p.Sound) {i : ℕ} (hi : p.Refers i) (key : Bytes) :
    ∃ r objects cache, p.objects[i]? = some r ∧ objects.map (·.info) = p.objects.map (·.info) ∧
      p.consultTable true key i = ({ p with objects := objects, cache := cache },
        Sst.plainGet (p.files.find? r.info.id) r.info key) ∧
      Sound { p with objects := objects, cache := cache } := by
  obtain ⟨r, hr, hfile⟩ := h.held i hi
  have hmem := List.mem_of_getElem? hr
  obtain ⟨u, hu, hm⟩ := h.mirrors r hmem
  have hsection := h.sections u hu
  have hsame : { r with file := if r.fileOpen then r.file else p.files.find? r.info.id } = r := by
    rw [hfile, ite_self]
  have hcaches : Sst.Caches u.file u.info.id p.cache := by
    intro n hn hid
    obtain ⟨v, hv, hvid, hblock⟩ := h.cached n hn
    rwa [h.eq_of_id hu hv (hid.symm.trans hvid.symm)]
  have hanswers := Sst.answers_get (c := ⟨r, p.cache, {}, {}⟩) hsection hm hcaches key
  have hplain : Sst.plainGet (p.files.find? r.info.id) r.info key =
      Sst.tableAnswer u.file u.info key := by
    rw [hfile, hm.content, hm.table, Sst.plainGet_eq hsection]
  have hinfos : (p.objects.set i (ReadContext.get key ⟨r, p.cache, {}, {}⟩).1.reader).map
      (·.info) = p.objects.map (·.info) := by
    refine List.ext_getElem? (fun j => ?_)
    rw [List.getElem?_map, List.getElem?_map, List.getElem?_set]
    split
    · rename_i hij
      rw [if_pos (List.getElem?_eq_some_iff.mp hr).1, ← hij, hr, Option.map_some, Option.map_some,
        hanswers.reader.table, hm.table]
    · rfl
  refine ⟨r, p.objects.set i (ReadContext.get key ⟨r, p.cache, {}, {}⟩).1.reader,
    (ReadContext.get key ⟨r, p.cache, {}, {}⟩).1.cache, hr, hinfos, ?_, ?_⟩
  · rw [Process.consultTable, hr]
    dsimp only
    rw [if_pos rfl, hsame, hplain, hanswers.result]
  · refine h.fill hinfos (fun r' hr' => ?_) (fun n hn => ?_)
    · rcases List.mem_or_eq_of_mem_set hr' with hr' | rfl
      · exact h.mirrors r' hr'
      · exact ⟨u, hu, hanswers.reader⟩
    · rcases hanswers.cache n hn with hn | ⟨hid, hblock⟩
      · exact h.cached n hn
      · exact ⟨u, hu, hid.symm, hblock⟩

/-! ## Memtables and gets -/

theorem Sound.applyRecord (h : p.Sound) {r : Record} (hr : accepts r = true) :
    (p.applyRecord r).Sound := by
  obtain ⟨hactive, hold⟩ := List.forall_mem_cons.mp h.memory
  exact { h with
    memory := List.forall_mem_cons.mpr
      ⟨hactive.apply (length_of_accepts hr) _ _ _, hold⟩
    progress := h.progress.of_eq rfl rfl rfl (fun _ => rfl) (fun _ hr => hr) }

/-- Other snapshots are taken, of tables that were readable. -/
theorem Sound.look (h : p.Sound) {version : Snapshot} {gets : List Lookup}
    {answers : List (Bytes × Except Fault (Option Bytes))} (hv : version.tables = p.readers)
    (hg : ∀ g ∈ gets, (∀ i ∈ g.snapshot.tables, p.Refers i) ∧
      ∀ rest, g.spot = .tables rest → rest ⊆ g.snapshot.tables) :
    Sound { p with version := version, gets := gets, answers := answers } := by
  have hrefers : ∀ i, Refers { p with version := version, gets := gets, answers := answers } i →
      p.Refers i := by
    rintro i (hi | ⟨g, hmem, hi⟩)
    · left
      rw [h.current]
      rwa [← hv]
    · exact (hg g hmem).1 i hi
  exact { h with
    current := hv
    held := fun i hi => h.held i (hrefers i hi)
    places := fun g hmem => (hg g hmem).2
    progress := h.progress.of_eq rfl rfl rfl (fun _ => rfl) hrefers }

theorem Sound.get (h : p.Sound) {g : Lookup} (hg : g ∈ p.gets) :
    (∀ i ∈ g.snapshot.tables, p.Refers i) ∧
      ∀ rest, g.spot = .tables rest → rest ⊆ g.snapshot.tables :=
  ⟨fun _ hi => .inr ⟨g, hg, hi⟩, h.places g hg⟩

theorem Sound.freeze (h : p.Sound) : p.freeze.Sound := by
  exact { h with
    memory := List.forall_mem_cons.mpr ⟨fits_fresh _, h.memory⟩
    progress := h.progress.of_eq rfl rfl rfl (fun _ => rfl) (fun _ hr => hr) }

theorem Sound.rotate (h : p.Sound) (hstep : p.rotate = some p') : p'.Sound := by
  rw [Process.rotate] at hstep
  split at hstep
  · obtain rfl := Option.some.inj hstep
    refine h.freeze.look rfl (fun g hg => ?_)
    obtain ⟨g₀, hg₀, rfl⟩ := List.mem_map.mp hg
    have hkeep := h.get hg₀
    exact hkeep
  · cases hstep

theorem Sound.load (h : p.Sound) {key : Bytes} (hstep : p.load key = some p') : p'.Sound := by
  rw [Process.load] at hstep
  split at hstep
  · cases hstep
  obtain rfl := Option.some.inj hstep
  refine h.look h.current (fun g hg => ?_)
  rcases List.mem_append.mp hg with hg | hg
  · exact h.get hg
  · obtain rfl := List.mem_singleton.mp hg
    exact ⟨fun i hi => .inl hi, fun rest hspot => nomatch hspot⟩

theorem Sound.answer (h : p.Sound) (i : ℕ) (g : Lookup) (result : Except Fault (Option Bytes)) :
    (p.answer i g result).Sound :=
  h.look h.current (fun _ hg => h.get (List.mem_of_mem_eraseIdx hg))

theorem Sound.resume (h : p.Sound) {i : ℕ} {g : Lookup} (hg : p.gets[i]? = some g) {spot : Spot}
    (hspot : ∀ rest, spot = .tables rest → rest ⊆ g.snapshot.tables) :
    (p.resume i g spot).Sound := by
  refine h.look h.current (fun g' hg' => ?_)
  rcases List.mem_or_eq_of_mem_set hg' with hg' | rfl
  · exact h.get hg'
  · exact ⟨(h.get (List.mem_of_getElem? hg)).1, hspot⟩

/-! ## Flushes and compactions up to their output -/

theorem Sound.goOn (h : p.Sound) {creator : Progress}
    (hc : InProgress { p with creator := creator }) : Sound { p with creator := creator } :=
  { h with progress := hc }

theorem Sound.flush (h : p.Sound) (hstep : p.flush = some p') : p'.Sound := by
  rw [Process.flush] at hstep
  split at hstep
  · split at hstep
    · obtain rfl := Option.some.inj hstep
      exact h
    · rename_i target htarget
      obtain rfl := Option.some.inj hstep
      exact h.goOn ⟨h.memory target (List.mem_cons_of_mem _ (List.mem_of_getLast? htarget)), rfl⟩
  · cases hstep

theorem Sound.compact (h : p.Sound) {inputs : Option (List ℕ)}
    (hstep : p.compact inputs = some p') : p'.Sound := by
  rw [Process.compact] at hstep
  split at hstep
  · split at hstep
    · obtain rfl := Option.some.inj hstep
      exact h
    · obtain rfl := Option.some.inj hstep
      exact h.goOn trivial
  · cases hstep

theorem Sound.merge (h : p.Sound) {now : ℕ} (hstep : p.merge now = some p') : p'.Sound := by
  rw [Process.merge] at hstep
  split at hstep
  · split at hstep
    · obtain rfl := Option.some.inj hstep
      exact h.goOn trivial
    · rename_i final hfinal
      split at hstep
      · obtain rfl := Option.some.inj hstep
        exact h.goOn trivial
      · obtain rfl := Option.some.inj hstep
        exact h.goOn (fits_mergeInputs hfinal)
  · cases hstep

theorem Sound.name (h : p.Sound) (hstep : p.name = some p') : p'.Sound := by
  rw [Process.name] at hstep
  split at hstep
  · rename_i ids final hcreator
    obtain rfl := Option.some.inj hstep
    have hfits := h.progress
    rw [InProgress, hcreator] at hfits
    exact h.goOn ⟨hfits, rfl⟩
  · cases hstep

theorem Sound.nextInput (h : p.Sound) (hstep : p.nextInput = some p') : p'.Sound := by
  have hprogress := h.progress
  rw [Process.nextInput] at hstep
  split at hstep
  · obtain rfl := Option.some.inj hstep
    exact h.goOn trivial
  · rename_i i rs hcreator
    rw [InProgress, hcreator] at hprogress
    split at hstep
    · obtain rfl := Option.some.inj hstep
      exact h.goOn (fun j hj => hprogress j (List.mem_cons_of_mem _ hj))
    · rename_i hfree
      obtain rfl := Option.some.inj hstep
      exact h.goOn ⟨fun hrefers => hfree ((referenced_iff i).mpr hrefers), hprogress⟩
  · cases hstep

/-! ## Files come and go -/

/-- Files may come and go, if those of the manifest and of every snapshot stay. -/
theorem Sound.refile (h : p.Sound) {files : OrderedMap ℕ Bytes} {creator : Progress}
    (hwritten : ∀ id file, files.find? id = some file → Sst.Written file)
    (hintact : ∀ u ∈ p.published, ∀ file, files.find? u.info.id = some file →
      p.files.find? u.info.id = some file)
    (hlisted : ∀ id ∈ p.manifest.tables.map (·.id), files.find? id = p.files.find? id)
    (hheld : ∀ i info, p.Refers i → p.infoAt i = some info →
      files.find? info.id = p.files.find? info.id)
    (hc : InProgress { p with files := files, creator := creator }) :
    Sound { p with files := files, creator := creator } := by
  refine { h with
    written := hwritten
    intact := fun u hu file hfile => h.intact u hu file (hintact u hu file hfile)
    listed := fun t ht => ?_
    held := fun i hi => ?_
    progress := hc }
  · obtain ⟨u, hu, hinfo, hfile⟩ := h.listed t ht
    exact ⟨u, hu, hinfo, (hlisted t.id (List.mem_map_of_mem ht)).trans hfile⟩
  · obtain ⟨r, hr, hfile⟩ := h.held i hi
    exact ⟨r, hr, (hheld i r.info hi (infoAt_eq_some.mpr ⟨r, hr, rfl⟩)).trans hfile⟩

theorem Sound.lt_of_infoAt (h : p.Sound) {i : ℕ} {info : TableMeta} (hi : p.infoAt i = some info) :
    info.id < p.manifest.nextSstId := by
  obtain ⟨r, hr, rfl⟩ := infoAt_eq_some.mp hi
  exact h.lt_of_object (List.mem_of_getElem? hr)

theorem writeSstable_written {id : ℕ} {mem : Memtable} {cfg : Sst.SstConfig} {r : SstBuildResult}
    {file : Bytes} (hw : Sst.writeSstable id mem cfg = .ok (r, file)) (hfits : mem.Fits)
    (hsize : file.length < 2 ^ 63) : r.id = id ∧ Sst.Written file := by
  rw [Sst.writeSstable] at hw
  split at hw
  · cases hw
  split at hw
  · cases hw
  obtain ⟨rfl, rfl⟩ := Prod.mk.inj (Except.ok.inj hw)
  exact ⟨rfl, cfg, mem, hfits, rfl, hsize⟩

theorem Sound.place (h : p.Sound) {throws : Bool} {now : ℕ}
    (hstep : p.place throws now = some p') : p'.Sound := by
  rw [Process.place] at hstep
  split at hstep
  · rename_i job mem id hcreator
    have hprogress := h.progress
    rw [InProgress, hcreator] at hprogress
    obtain ⟨hfits, rfl⟩ := hprogress
    split at hstep
    · cases hstep
    · obtain rfl := Option.some.inj hstep
      exact h.goOn trivial
    rename_i r file hw
    split at hstep
    · obtain rfl := Option.some.inj hstep
      exact h.goOn trivial
    rename_i hthrows
    obtain ⟨-, hsize⟩ := not_or.mp hthrows
    obtain ⟨hid, hfile⟩ := writeSstable_written hw hfits (not_le.mp hsize)
    obtain rfl := Option.some.inj hstep
    have hother : ∀ id, id < p.manifest.nextSstId →
        (p.files.insert r.id file).find? id = p.files.find? id := fun id hlt =>
      find?_insert_of_ne _ _ (by omega)
    refine h.refile (fun id f hf => ?_)
      (fun u hu f hf => (hother u.info.id (h.fresh u hu)).symm.trans hf)
      (fun id hlisted => hother id (h.lt_of_listed hlisted))
      (fun i info _ hi => hother info.id (h.lt_of_infoAt hi)) ⟨hid, ?_⟩
    · by_cases hsame : r.id = id
      · subst hsame
        rw [find?_insert_self] at hf
        exact Option.some.inj hf ▸ hfile
      · rw [find?_insert_of_ne _ _ hsame] at hf
        exact h.written id f hf
    · show ((p.files.insert r.id file).find? r.id).isSome
      rw [find?_insert_self]
      rfl
  · cases hstep

theorem Sound.erase (h : p.Sound) {id : ℕ} {creator : Progress}
    (hlisted : id ∉ p.manifest.tables.map (·.id))
    (hheld : ∀ i info, p.Refers i → p.infoAt i = some info → info.id ≠ id)
    (hc : InProgress { p with files := p.files.erase id, creator := creator }) :
    Sound { p with files := p.files.erase id, creator := creator } := by
  have hother : ∀ other, other ≠ id → (p.files.erase id).find? other = p.files.find? other :=
    fun other hne => by rw [find?_erase, if_neg hne.symm]
  have hkept : ∀ other file, (p.files.erase id).find? other = some file →
      p.files.find? other = some file := by
    intro other file hfile
    rw [find?_erase] at hfile
    split at hfile
    · cases hfile
    · exact hfile
  refine h.refile (fun other f hf => h.written other f (hkept other f hf))
    (fun u _ f hf => hkept u.info.id f hf) (fun other hmem => hother other (fun heq => ?_))
    (fun i info hi hinfo => hother info.id (hheld i info hi hinfo)) hc
  exact hlisted (heq ▸ hmem)

theorem Sound.cancel (h : p.Sound) (hstep : p.cancel = some p') : p'.Sound := by
  rw [Process.cancel] at hstep
  split at hstep
  · obtain rfl := Option.some.inj hstep
    exact h.goOn trivial
  · obtain rfl := Option.some.inj hstep
    exact h.goOn trivial
  · rename_i ids info hcreator
    have hprogress := h.progress
    rw [InProgress, hcreator] at hprogress
    obtain rfl := Option.some.inj hstep
    refine h.erase (fun hlisted => ?_) (fun i other _ hi heq => ?_) trivial
    · exact absurd (h.lt_of_listed hlisted) (by rw [hprogress.1]; exact lt_irrefl _)
    · exact absurd (h.lt_of_infoAt hi) (by rw [heq, hprogress.1]; exact lt_irrefl _)
  · cases hstep

theorem Sound.unlink (h : p.Sound) (hstep : p.unlink = some p') : p'.Sound := by
  rw [Process.unlink] at hstep
  split at hstep
  · rename_i i rs hcreator
    have hprogress := h.progress
    rw [InProgress, hcreator] at hprogress
    obtain ⟨hfree, hdropped⟩ := hprogress
    have hrest : ∀ j ∈ rs, p.Dropped j := fun j hj => hdropped j (List.mem_cons_of_mem _ hj)
    obtain rfl := Option.some.inj hstep
    rcases hi : p.infoAt i with _ | info
    · exact h.goOn hrest
    · refine h.erase (hdropped i List.mem_cons_self info hi) (fun j other hj hother heq => ?_) hrest
      exact hfree (h.eq_of_infoAt hother hi heq ▸ hj)
  · cases hstep

end
end Process
end LsmKv
