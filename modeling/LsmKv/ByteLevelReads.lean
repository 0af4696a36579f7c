import LsmKv.CachingInvisible
import LsmKv.ProcessThreads

/-!
# Reads down to the bytes

Every get of a process answers with a value its key had while it ran. Between the answer and the
log stand the checks of the footer, the filter, the index, the restart points and the checksums,
the block cache, pinned indexes, readers whose files are closed and reopened, and outputs that
were abandoned; none of it shows.
-/

namespace LsmKv
open Sst (TableMeta TableReader BlockCache Fault Images Bounds)
open OrderedMap

/-! ## Outputs -/

section
variable {o : Timed} {s : Threads} {p' : Process}

/-- An output is put in place, or abandoned. -/
theorem Shadows.place (h : Shadows o s) {throws : Bool} {now : ℕ}
    (himages : ∀ job mem id r file, o.process.creator = .named job mem id →
      Sst.writeSstable id mem (o.process.config.sst mem.entries) = .ok (r, file) →
      file.length < 2 ^ 63 → Images file mem.map)
    (hstep : o.process.place throws now = some p') :
    Shadows (o.goTo p') { s with creator := .idle } ∨
      ∃ s₁ s₂, s.temp = some s₁ ∧ s₁.rename now = some s₂ ∧ Shadows (o.goTo p') s₂ := by
  have hcreator := h.creator
  rw [Process.place] at hstep
  split at hstep
  · rename_i job mem id hnamed
    rw [hnamed] at hcreator
    split at hstep
    · cases hstep
    · obtain rfl := Option.some.inj hstep
      exact .inl (h.turn rfl)
    rename_i r file hwrite
    split at hstep
    · obtain rfl := Option.some.inj hstep
      exact .inl (h.turn rfl)
    · rename_i hgood
      obtain rfl := Option.some.inj hstep
      have himage := himages job mem id r file hnamed hwrite (by omega)
      rw [← h.config] at hwrite
      have htemp : s.temp = some { s with
          engine := { s.engine with temps := r.id :: s.engine.temps }
          creator := .temp job mem r } := by
        rw [Threads.temp, show s.creator = .named job mem id from hcreator]
        dsimp only
        rw [hwrite]
      refine .inr ⟨_, _, htemp, rfl, { h with
        files := rel_insert h.files himage r.id
        creator := ⟨rfl, ?_⟩ }⟩
      rintro info ⟨⟩
      exact ⟨file, mem.map, find?_insert_self _ _ _, himage, Sst.bounds_writeSstable hwrite now⟩
  · cases hstep

theorem Shadows.cancel (h : Shadows o s) (hp : o.process.Sound)
    (hstep : o.process.cancel = some p') :
    Shadows (o.goTo p') { s with creator := .idle } ∨
      ∃ id, s.engine.manifest.nextSstId ≤ id ∧ Shadows (o.goTo p') { s with
        engine := { s.engine with files := s.engine.files.erase id }
        creator := .idle } := by
  have hprogress := hp.progress
  rw [Process.cancel] at hstep
  split at hstep
  · obtain rfl := Option.some.inj hstep
    exact .inl (h.turn rfl)
  · obtain rfl := Option.some.inj hstep
    exact .inl (h.turn rfl)
  · rename_i ids info hplaced
    rw [Process.InProgress, hplaced] at hprogress
    obtain rfl := Option.some.inj hstep
    exact .inr ⟨info.id, (h.manifest ▸ hprogress.1).ge,
      { h with files := rel_erase h.files info.id, creator := rfl }⟩
  · cases hstep

/-! ## Publishing -/

theorem publishFlush_ok {e e' : Engine} {info : TableMeta}
    (h : e.publishFlush info = (e', .ok ())) :
    (e.manifest.addTable info).dumps e.config.isUtf8 = true ∧ e' = { e with
      manifest := e.manifest.addTable info
      stored := some (e.manifest.addTable info)
      readers := info :: e.readers
      immutables := e.immutables.dropLast
      version := ⟨e.immutables.dropLast, info :: e.readers⟩ } := by
  rw [Engine.publishFlush, Engine.publishFlushAt, Engine.saveAt] at h
  split at h
  · rename_i hsave
    split at hsave
    · cases hsave
    · obtain ⟨rfl, -⟩ := Prod.mk.inj hsave
      cases h
  · rename_i hsave
    split at hsave
    · rename_i hdumps
      obtain ⟨rfl, -⟩ := Prod.mk.inj hsave
      exact ⟨hdumps, (Prod.mk.inj h).1.symm⟩
    · cases hsave

/-- The reader of a table goes on, or is made. -/
def readerFor (rs : List TableMeta) (t : TableMeta) : TableMeta :=
  (rs.find? (fun r => r.id = t.id)).getD t

theorem publishCompaction_ok {e e' : Engine} {ids : List ℕ} {added : Option TableMeta}
    {removed : List TableMeta} (h : e.publishCompaction ids added = (e', .ok removed)) :
    (e.manifest.applyCompaction e.config.sort ids added).dumps e.config.isUtf8 = true ∧
      removed = e.readers.filter (fun r => r.id ∈ ids) ∧ e' = { e with
        manifest := e.manifest.applyCompaction e.config.sort ids added
        stored := some (e.manifest.applyCompaction e.config.sort ids added)
        readers := (e.manifest.applyCompaction e.config.sort ids added).tables.map
          (readerFor e.readers)
        version := ⟨e.immutables, (e.manifest.applyCompaction e.config.sort ids added).tables.map
          (readerFor e.readers)⟩ } := by
  rw [Engine.publishCompaction, Engine.publishCompactionAt, Engine.saveAt] at h
  split at h
  · rename_i hsave
    split at hsave
    · cases hsave
    · obtain ⟨rfl, -⟩ := Prod.mk.inj hsave
      cases h
  · rename_i hsave
    split at hsave
    · rename_i hdumps
      obtain ⟨rfl, -⟩ := Prod.mk.inj hsave
      exact ⟨hdumps, (Except.ok.inj (Prod.mk.inj h).2).symm, (Prod.mk.inj h).1.symm⟩
    · cases hsave

theorem infoAt_append {p : Process} (more : List TableReader) {i : ℕ} {info : TableMeta}
    (h : p.infoAt i = some info) : (p.objects ++ more)[i]?.map (·.info) = some info :=
  @Process.infoAt_of_append p { p with objects := p.objects ++ more } more rfl i info h

/-- What the loop over the tables makes of the readers. -/
theorem serves_makeReaders {p : Process} {rs : List TableMeta}
    (hserves : Process.Serves p.infoAt p.readers rs) (ts : List TableMeta)
    (more : List TableReader) :
    Process.Serves (fun i => (p.makeReaders ts (p.objects ++ more)).1[i]?.map (·.info))
      (p.makeReaders ts (p.objects ++ more)).2 (ts.map (readerFor rs)) := by
  induction ts generalizing more with
  | nil => exact .nil
  | cons t ts ih =>
    have hfind := forall₂_find? hserves (p := fun i => (p.infoAt i).any (fun r => r.id = t.id))
      (q := fun r => r.id = t.id) (fun i r hi => by
        rw [show p.infoAt i = some r from hi, Option.any_some])
    rw [Process.makeReaders]
    rcases hreader : p.readerOf t with _ | i
    · rw [show p.readers.find? _ = none from hreader] at hfind
      have hnone : rs.find? (fun r => r.id = t.id) = none := by
        cases hrs : rs.find? (fun r => r.id = t.id) with
        | none => rfl
        | some r =>
          rw [hrs] at hfind
          cases hfind
      have hrest := ih (more ++ [p.newReader t])
      rw [← List.append_assoc] at hrest
      refine .cons ?_ hrest
      dsimp only
      rw [readerFor, hnone, Process.makeReaders_objects, List.getElem?_append_left (by simp),
        List.getElem?_append_right le_rfl, Nat.sub_self]
      rfl
    · rw [show p.readers.find? _ = some i from hreader] at hfind
      refine .cons ?_ (ih more)
      cases hrs : rs.find? (fun r => r.id = t.id) with
      | none =>
        rw [hrs] at hfind
        cases hfind
      | some r =>
        rw [hrs] at hfind
        cases hfind with
        | some hi =>
          rw [readerFor, hrs, Process.makeReaders_objects, List.append_assoc]
          exact infoAt_append _ hi

theorem save_ok {p : Process} {m : Manifest} (h : m.dumps p.config.isUtf8 = true) :
    p.save none m = ({ p with manifest := m, stored := some m }, .ok ()) := by
  rw [Process.save, if_pos h]

theorem published_record (h : Shadows o s) {added : Option TableMeta}
    (hplaced : ∀ info ∈ added, o.process.Placed info) :
    ∀ u ∈ (o.process.record added).published, ∃ rows, Images u.file rows ∧ Bounds u.info rows := by
  intro u hu
  rcases List.mem_append.mp hu with hu | hu
  · exact h.published u hu
  · obtain ⟨info, hinfo, rfl⟩ := List.mem_map.mp hu
    obtain ⟨file, rows, hfile, himage, hbounds⟩ := hplaced info (Option.mem_toList.mp hinfo)
    refine ⟨rows, ?_, hbounds⟩
    rw [hfile]
    exact himage

theorem Shadows.publishFlush (h : Shadows o s) {info : TableMeta}
    (hplaced : o.process.Placed info)
    (hdumps : (s.engine.manifest.addTable info).dumps s.engine.config.isUtf8 = true) :
    Shadows (o.goTo (o.process.publishFlush none info)) { s with
      engine := { s.engine with
        manifest := s.engine.manifest.addTable info
        stored := some (s.engine.manifest.addTable info)
        readers := info :: s.engine.readers
        immutables := s.engine.immutables.dropLast
        version := ⟨s.engine.immutables.dropLast, info :: s.engine.readers⟩ }
      creator := .idle } := by
  rw [h.manifest, h.config] at hdumps
  have hkeep : ∀ i t, o.process.infoAt i = some t →
      (o.process.objects ++ [o.process.newReader info])[i]?.map (·.info) = some t :=
    fun i t hi => infoAt_append _ hi
  have hnew : (o.process.objects ++ [o.process.newReader info])[o.process.objects.length]?.map
      (·.info) = some info := by
    rw [List.getElem?_append_right le_rfl, Nat.sub_self]
    rfl
  have hpublished := @published_record _ _ h (some info) (fun _ ht => by
    rwa [← Option.some.inj ht])
  have hsave : (o.process.record (some info)).save none (o.process.manifest.addTable info) =
      ({ o.process.record (some info) with
        manifest := o.process.manifest.addTable info
        stored := some (o.process.manifest.addTable info) }, .ok ()) := save_ok hdumps
  rw [Process.publishFlush, hsave]
  exact { h with
    manifest := congrArg (fun m => m.addTable info) h.manifest
    immutables := congrArg List.dropLast h.immutables
    readers := .cons hnew (h.readers.mono hkeep)
    frozen := congrArg List.dropLast h.immutables
    tables := .cons hnew (h.readers.mono hkeep)
    published := hpublished
    creator := rfl
    gets := h.gets.imp (fun _ _ hg => hg.mono hkeep) }

theorem Shadows.publishCompaction (h : Shadows o s) {ids : List ℕ} {added : Option TableMeta}
    (hplaced : ∀ info ∈ added, o.process.Placed info)
    (hdumps : (s.engine.manifest.applyCompaction s.engine.config.sort ids added).dumps
      s.engine.config.isUtf8 = true) :
    Shadows (o.goTo (o.process.publishCompaction none ids added)) { s with
      engine := { s.engine with
        manifest := s.engine.manifest.applyCompaction s.engine.config.sort ids added
        stored := some (s.engine.manifest.applyCompaction s.engine.config.sort ids added)
        readers := (s.engine.manifest.applyCompaction s.engine.config.sort ids added).tables.map
          (readerFor s.engine.readers)
        version := ⟨s.engine.immutables,
          (s.engine.manifest.applyCompaction s.engine.config.sort ids added).tables.map
            (readerFor s.engine.readers)⟩ }
      creator := .deleting (s.engine.readers.filter (fun r => r.id ∈ ids)) } := by
  have hedit : s.engine.manifest.applyCompaction s.engine.config.sort ids added =
      o.process.manifest.applyCompaction o.process.config.sort ids added := by
    rw [h.manifest, h.config]
  rw [hedit, h.config] at hdumps
  rw [hedit]
  have hsave : (o.process.record added).save none
      (o.process.manifest.applyCompaction o.process.config.sort ids added) =
        ({ o.process.record added with
          manifest := o.process.manifest.applyCompaction o.process.config.sort ids added
          stored := some (o.process.manifest.applyCompaction o.process.config.sort ids added) },
          .ok ()) := save_ok hdumps
  have hserves := serves_makeReaders (p := { o.process.record added with
      manifest := o.process.manifest.applyCompaction o.process.config.sort ids added
      stored := some (o.process.manifest.applyCompaction o.process.config.sort ids added) })
    h.readers (o.process.manifest.applyCompaction o.process.config.sort ids added).tables []
  rw [List.append_nil] at hserves
  have hkeep : ∀ i t, o.process.infoAt i = some t →
      (Process.makeReaders { o.process.record added with
        manifest := o.process.manifest.applyCompaction o.process.config.sort ids added
        stored := some (o.process.manifest.applyCompaction o.process.config.sort ids added) }
        (o.process.manifest.applyCompaction o.process.config.sort ids added).tables
        o.process.objects).1[i]?.map (·.info) = some t := by
    intro i t hi
    rw [Process.makeReaders_objects]
    exact infoAt_append _ hi
  rw [Process.publishCompaction, hsave]
  exact { h with
    manifest := rfl
    readers := hserves
    frozen := h.immutables
    tables := hserves
    published := published_record h hplaced
    creator := ⟨_, rfl, (h.readers.filter _).mono hkeep⟩
    gets := h.gets.imp (fun _ _ hg => hg.mono hkeep) }

end

/-! ## The rows of an output -/

/-- Keys and values the log takes, of keys the manifest can hold. -/
def Taken (config : Config) (key value : Bytes) : Prop :=
  config.isUtf8 key = true ∧ key ≠ [] ∧ key.length ≤ WalFormat.kMaxPayload ∧
    value.length ≤ WalFormat.kMaxPayload

theorem taken_of_accepts {config : Config} {r : Record} (hkey : config.isUtf8 r.key = true)
    (h : Process.accepts r = true) : Taken config r.key r.value := by
  rw [Process.accepts, Wal.checkAppend, if_neg (by decide)] at h
  by_cases hempty : r.key = []
  · rw [if_pos hempty] at h
    cases h
  by_cases hlong : WalFormat.kMaxPayload < r.key.length ∨ WalFormat.kMaxPayload < r.value.length
  · rw [if_neg hempty, if_pos hlong] at h
    cases h
  · exact ⟨hkey, hempty, by omega, by omega⟩

section
variable {e : Engine} {A B : List Record} {ps : List (List Record)} {q : List Record}
  {D : List LiveTable} {mem : Memtable}

/-- Every row of an output is a mutation that was applied. -/
theorem Purpose.Sound.drawn {job : Purpose} (hj : job.Sound e D mem) (hs : Stored e A B ps q D)
    {k : Bytes} {row : MemEntry} (hrow : mem.map.find? k = some row) :
    ∃ r ∈ A, r.key = k ∧ r.row = row := by
  cases job with
  | flush =>
    obtain ⟨p, ps', rfl, rfl⟩ := hs.oldest hj
    obtain ⟨r, hr, hrow⟩ := Option.map_eq_some_iff.mp ((find_memtable e.config p k).symm.trans hrow)
    obtain ⟨hmem, hkey⟩ := mem_of_lastRecord hr
    refine ⟨r, ?_, hkey, hrow⟩
    rw [hs.applied, List.flatten_cons]
    simp [hmem]
  | compaction ids =>
    obtain ⟨front, inputs, back, gone, hsel, hrows, -⟩ := hj
    rw [hrows k, Option.filter_eq_some_iff] at hrow
    obtain ⟨T, hT, hrow⟩ := exists_of_tableHit hrow.1
    obtain ⟨r, hr, hkey, hrow⟩ := hs.rows T (hsel.mem.mpr (.inr hT)) k row hrow
    refine ⟨r, ?_, hkey, hrow⟩
    rw [hs.applied]
    exact List.mem_append_left _ hr

/-- There are no more rows than mutations. -/
theorem entries_le (h : ∀ k row, mem.map.find? k = some row → ∃ r ∈ A, r.key = k ∧ r.row = row) :
    mem.entries ≤ A.length := by
  have hnodup : (mem.map.entries.map Prod.fst).Nodup :=
    List.pairwise_map.mpr (mem.map.sorted.imp fun hlt => hlt.ne)
  have hsub : mem.map.entries.map Prod.fst ⊆ A.map (·.key) := by
    intro k hk
    obtain ⟨p, hp, rfl⟩ := List.mem_map.mp hk
    obtain ⟨r, hr, hkey, -⟩ := h p.1 p.2 (find?_eq_some_iff.mpr hp)
    exact hkey ▸ List.mem_map_of_mem hr
  have hle := (List.subperm_of_subset hnodup hsub).length_le
  rwa [List.length_map, List.length_map] at hle

end

/-! ## Runs -/

/-- What holds of a process and of the threads behind it. -/
structure Tracked (config : Config) (most : ℕ) (o : Timed) (s : Threads) : Prop where
  sound : o.process.Sound
  shadows : Shadows o s
  threads : ∃ B ps q D l, Threads.Sound config (Taken config) s B ps q D l
  reads : s.Reads
  numbers : ∀ r ∈ o.applied, r.seqno < 2 ^ 64
  count : o.applied.length ≤ most

/-- The mutations of one log: their numbers ascend and fit their field, and there are at most
`most`. A memtable is rotated after a mutation, and the manifest can be written. -/
def Timed.Allows (most : ℕ) (o : Timed) : Act → Prop
  | .apply r => o.process.config.isUtf8 r.key = true ∧ (∀ a ∈ o.applied, a.seqno < r.seqno) ∧
      0 < r.seqno ∧ r.seqno < 2 ^ 64 ∧ o.applied.length < most
  | .rotate => o.process.active.entries ≠ 0
  | .publish fault => fault = none
  | _ => True

instance (most : ℕ) (o : Timed) : (a : Act) → Decidable (o.Allows most a)
  | .apply r => inferInstanceAs (Decidable (o.process.config.isUtf8 r.key = true ∧
      (∀ a ∈ o.applied, a.seqno < r.seqno) ∧ 0 < r.seqno ∧ r.seqno < 2 ^ 64 ∧
      o.applied.length < most))
  | .rotate => inferInstanceAs (Decidable (o.process.active.entries ≠ 0))
  | .publish fault => inferInstanceAs (Decidable (fault = none))
  | .flush | .compact _ | .merge _ | .name | .place _ _ | .cancel | .nextInput | .unlink
  | .evict _ | .load _ | .consult _ => inferInstanceAs (Decidable True)

section
variable {config : Config} {most : ℕ} {o o' : Timed} {s s' : Threads} {p' : Process}

/-- The rows of an output are mutations, of which there are not too many. -/
theorem Tracked.drawn (h : Tracked config most o s) {job : Purpose} {mem : Memtable} {id : ℕ}
    (hnamed : s.creator = .named job mem id) : mem.entries ≤ most ∧
      Sst.AcceptedRows mem ∧ ∀ e ∈ mem.map.entries, e.2.seqno < 2 ^ 64 := by
  obtain ⟨B, ps, q, D, l, hsound⟩ := h.threads
  have hc := hsound.creator
  rw [hnamed] at hc
  have hdrawn : ∀ k row, mem.map.find? k = some row → ∃ r ∈ s.applied, r.key = k ∧ r.row = row :=
    fun k row hrow => hc.2.drawn hsound.stored hrow
  refine ⟨(entries_le hdrawn).trans (h.shadows.applied ▸ h.count), fun e he => ?_,
    fun e he => ?_⟩
  · obtain ⟨r, hr, hkey, hrow⟩ := hdrawn e.1 e.2 (find?_eq_some_iff.mpr he)
    rw [← hkey, ← hrow]
    exact (hsound.keys r hr).2
  · obtain ⟨r, hr, -, hrow⟩ := hdrawn e.1 e.2 (find?_eq_some_iff.mpr he)
    rw [← hrow]
    exact h.numbers r (h.shadows.applied ▸ hr)

theorem Tracked.config_eq (h : Tracked config most o s) : o.process.config = config := by
  obtain ⟨B, ps, q, D, l, hsound⟩ := h.threads
  exact h.shadows.config.symm.trans hsound.settings

theorem Tracked.images (h : Tracked config most o s) (hsized : ∀ n ≤ most, (config.sst n).Sized)
    (job : Purpose) (mem : Memtable) (id : ℕ) (r : Sst.SstBuildResult) (file : Bytes)
    (hnamed : o.process.creator = .named job mem id)
    (hwrite : Sst.writeSstable id mem (o.process.config.sst mem.entries) = .ok (r, file))
    (hsize : file.length < 2 ^ 63) : Images file mem.map := by
  have hcreator := h.shadows.creator
  rw [hnamed] at hcreator
  obtain ⟨hentries, haccepted, hseqnos⟩ := h.drawn hcreator
  rw [h.config_eq] at hwrite
  exact Sst.images_writeSstable hwrite (hsized _ hentries) haccepted hseqnos hsize

/-- The blocks of an output are short enough for the index. -/
theorem Tracked.indexed (h : Tracked config most o s)
    (hsized : ∀ n ≤ most, (config.sst n).Sized) (htemp : s.temp = some s') (now : ℕ) :
    s'.Indexed (.rename now) := by
  obtain ⟨B, ps, q, D, l, hsound⟩ := h.threads
  rw [Threads.temp] at htemp
  split at htemp
  · rename_i job mem id hnamed
    obtain ⟨hentries, haccepted, -⟩ := h.drawn hnamed
    split at htemp
    · cases htemp
    · obtain rfl := Option.some.inj htemp
      exact Threads.indexed_of_none rfl
    · obtain rfl := Option.some.inj htemp
      intro placed hplaced
      obtain rfl := Option.some.inj hplaced
      rw [show s.engine.config = config from hsound.settings]
      exact List.any_eq_false.mpr (fun b hb => by
        simpa using Sst.length_blocks_lt haccepted (hsized _ hentries).blockSize b hb)
  · cases htemp

/-- The threads make a step, and nothing is recorded but the ends of gets. -/
theorem Tracked.along (h : Tracked config most o s) {a : Action}
    (ha : Threads.Brings (Taken config) a) (hindexed : s.Indexed a)
    (hstep : s.step a = some s') (hp : p'.Sound)
    {starts : List ℕ} {spans : List (ℕ × ℕ)}
    (hs : Shadows ⟨p', o.applied, starts, spans⟩ s') :
    Tracked config most ⟨p', o.applied, starts, spans⟩ s' := by
  obtain ⟨B, ps, q, D, l, hsound⟩ := h.threads
  obtain ⟨B', ps', q', D', l', hsound'⟩ := hsound.step (fun _ _ hkey => hkey.1) ha hstep
  exact ⟨hp, hs, ⟨B', ps', q', D', l', hsound'⟩, h.reads.step hsound hindexed hstep, h.numbers,
    h.count⟩

/-- The threads' creator gives up where the process's does. -/
theorem Tracked.abandon (h : Tracked config most o s) (hp : p'.Sound)
    (hs : Shadows (o.goTo p') { s with creator := .idle }) :
    Tracked config most (o.goTo p') { s with creator := .idle } := by
  obtain ⟨B, ps, q, D, l, hsound⟩ := h.threads
  have hshows : Creator.Shows l s.engine.wal .idle :=
    hsound.shows.eq h.shadows.creator.not_removing
  exact ⟨hp, hs, ⟨B, ps, q, D, l, hsound.turn trivial hshows rfl⟩,
    h.reads.calm (calm_turn s (by simp)), h.numbers, h.count⟩

theorem Tracked.discard (h : Tracked config most o s) (hp : p'.Sound) {id : ℕ}
    (hid : s.engine.manifest.nextSstId ≤ id)
    (hs : Shadows (o.goTo p') { s with
      engine := { s.engine with files := s.engine.files.erase id }
      creator := .idle }) :
    Tracked config most (o.goTo p') { s with
      engine := { s.engine with files := s.engine.files.erase id }
      creator := .idle } := by
  obtain ⟨B, ps, q, D, l, hsound⟩ := h.threads
  have hshows : Creator.Shows l s.engine.wal .idle :=
    hsound.shows.eq h.shadows.creator.not_removing
  have hfresh : ∀ t ∈ s.engine.version.tables, t.id ≠ id := by
    intro t ht
    rw [hsound.stored.version] at ht
    have ht : t ∈ s.engine.readers := ht
    rw [← hsound.stored.holds.readers] at ht
    obtain ⟨T, hT, rfl⟩ := List.mem_map.mp ht
    have hlt := hsound.stored.holds.fresh T (List.mem_append_right _ hT)
    omega
  refine ⟨hp, hs, ⟨B, ps, q, D, l, hsound.settings, hsound.stored.erase hfresh, hsound.writer,
    hshows, trivial, fun _ => rfl, hsound.brings, hsound.keys, hsound.acked⟩,
    h.reads.calm ⟨rfl, rfl, rfl, rfl, rfl, le_rfl, fun n hn _ => ?_, rfl, by simp⟩, h.numbers,
    h.count⟩
  show (s.engine.files.erase id).find? n = _
  rw [find?_erase, if_neg (by omega)]

/-- The log with its counter just below a new record. -/
theorem Keeps.renumber {w : Wal Record} {L rest : List Record} (h : Keeps w L rest) {n : ℕ}
    (hn : ∀ r ∈ L, r.seqno ≤ n) : Keeps { w with lastSeqno := n } L rest :=
  ⟨⟨h.intact.live, h.intact.lag, h.intact.increasing, fun r hr => hn r (h.suffix.subset hr),
    h.intact.known⟩, h.isOpen, h.ascending, hn, h.positive, h.suffix, h.rest⟩

theorem Tracked.apply (h : Tracked config most o s) {r : Record}
    (hallows : o.Allows most (.apply r)) (haccepts : Process.accepts r = true) :
    ∃ s', Tracked config most (o.note (.apply r) (o.process.applyRecord r)) s' := by
  obtain ⟨B, ps, q, D, l, hsound⟩ := h.threads
  obtain ⟨hkey, hlast, hpos, hsmall, hroom⟩ := hallows
  have hnot := h.shadows.creator.not_removing
  have hquiet : s.inRemoval = false := by
    rw [Threads.inRemoval]
    split
    · rename_i n ids hremoving
      exact absurd hremoving (hnot n ids)
    · rfl
  have hconfig : o.process.config = config := h.shadows.config.symm.trans hsound.settings
  have htaken : Taken config r.key r.value := taken_of_accepts (hconfig ▸ hkey) haccepts
  have hwriter := hsound.writer
  rw [h.shadows.writer] at hwriter
  have hkeeps : Keeps l s.applied (ps.flatten ++ q) := hwriter
  have hbelow : ∀ a ∈ s.applied, a.seqno ≤ r.seqno - 1 := by
    intro a ha
    have := hlast a (h.shadows.applied ▸ ha)
    omega
  obtain ⟨l', hlogged⟩ : ∃ l', Keeps l' (s.applied ++ [r]) (ps.flatten ++ q ++ [r]) :=
    ⟨_, (hkeeps.renumber hbelow).append (Nat.succ_pred_eq_of_pos hpos).symm⟩
  have hacked : s.applied = s.acked := by
    have := hsound.acked
    rw [h.shadows.writer] at this
    exact this.trans (List.append_nil _)
  have hready : Threads.Sound config (Taken config)
      { s with engine := { s.engine with wal := l' }, writer := .logged r } B ps q D l' :=
    hsound.log hquiet hlogged htaken (by rw [h.shadows.writer]; rfl)
  obtain ⟨q', happlied⟩ := hready.apply rfl
  have hreads : Threads.Reads { s with
      engine := Engine.apply r { s.engine with wal := l' }
      writer := .applied r
      applied := s.applied ++ [r] } := (h.reads.calm (calm_log s (.logged r) l')).apply rfl
  refine ⟨{ s with
      engine := { s.engine.apply r with wal := l' }
      applied := s.applied ++ [r]
      acked := s.acked ++ [r] }, h.sound.applyRecord haccepts,
    h.shadows.apply r l' (s.acked ++ [r]),
    ⟨B, ps, q', D, l', happlied.settings, happlied.stored, ?_, happlied.shows, happlied.creator,
      ?_, ?_, happlied.keys, ?_⟩, hreads.calm ⟨rfl, rfl, rfl, rfl, rfl, le_rfl, fun _ _ _ => rfl,
      rfl, fun _ _ hr => .inl hr⟩, fun a ha => ?_, ?_⟩
  · rw [h.shadows.writer]
    exact happlied.writer.1
  · rw [Threads.inAppend, h.shadows.writer]
    simp
  · rw [h.shadows.writer]
    trivial
  · rw [h.shadows.writer]
    exact (congrArg (· ++ [r]) hacked).trans (List.append_nil _).symm
  · rcases List.mem_append.mp ha with ha | ha
    · exact h.numbers a ha
    · exact List.mem_singleton.mp ha ▸ hsmall
  · show (o.applied ++ [r]).length ≤ most
    rw [List.length_append, List.length_singleton]
    omega

theorem Tracked.rotate (h : Tracked config most o s)
    (hrows : o.process.active.entries ≠ 0) (hstep : o.process.rotate = some p') :
    ∃ s', Tracked config most (o.goTo p') s' := by
  obtain ⟨B, ps, q, D, l, hsound⟩ := h.threads
  have hwriter := hsound.writer
  rw [h.shadows.writer] at hwriter
  have hacked : s.applied = s.acked := by
    have := hsound.acked
    rw [h.shadows.writer] at this
    exact this.trans (List.append_nil _)
  rcases List.eq_nil_or_concat' q with rfl | ⟨q, r, rfl⟩
  · rw [← h.shadows.active, hsound.stored.active] at hrows
    exact absurd rfl hrows
  have happlied : s.applied = (B ++ (ps.flatten ++ q)) ++ [r] := by
    rw [hsound.stored.applied]
    simp
  have hr : r ∈ s.applied := by
    rw [happlied]
    simp
  obtain ⟨s', hs', hshadows, hacked'⟩ := h.shadows.rotate r (B ++ (ps.flatten ++ q)) hstep
  have hready : Threads.Sound config (Taken config)
      { s with writer := .applied r, acked := B ++ (ps.flatten ++ q) } B ps (q ++ [r]) D l :=
    ⟨hsound.settings, hsound.stored, ⟨hwriter, by simp⟩, hsound.shows, hsound.creator, nofun,
      hsound.keys r hr, hsound.keys, happlied⟩
  have hreads : Threads.Reads { s with writer := .applied r, acked := B ++ (ps.flatten ++ q) } :=
    h.reads.calm ⟨rfl, rfl, rfl, rfl, rfl, le_rfl, fun _ _ _ => rfl, rfl, fun _ _ hr => .inl hr⟩
  obtain ⟨ps', q', l', hsound'⟩ := hready.rotate hs'
  exact ⟨s', h.sound.rotate hstep, hshadows, ⟨B, ps', q', D, l', hsound'⟩, hreads.rotate hs',
    h.numbers, h.count⟩

theorem Tracked.publish (h : Tracked config most o s) (hstep : o.process.publish none = some p') :
    ∃ s', Tracked config most (o.goTo p') s' := by
  obtain ⟨B, ps, q, D, l, hsound⟩ := h.threads
  have hcreator := h.shadows.creator
  have hc := hsound.creator
  have hsound' := h.sound.publish hstep
  have hutf8 : ∀ r ∈ s.applied, s.engine.config.isUtf8 r.key = true := by
    rw [hsound.settings]
    exact fun r hr => (hsound.keys r hr).1
  rw [Process.publish] at hstep
  split at hstep
  · rename_i info hplaced
    rw [hplaced] at hcreator
    obtain ⟨hplace, hfile⟩ := hcreator
    rw [hplace] at hc
    obtain ⟨T, target, hinfo, hT, hrows, ht⟩ := hc
    obtain rfl := Option.some.inj hinfo
    obtain ⟨e', p, ps', hpub, -⟩ :=
      hsound.stored.flush hsound.writer.ascending hutf8 hT hrows ht
    have hpublish : s.step .publish = some { s with engine := e', creator := .published } := by
      show s.publish = _
      rw [Threads.publish, hplace]
      dsimp only
      rw [hpub]
    obtain ⟨hdumps, rfl⟩ := publishFlush_ok hpub
    obtain rfl := Option.some.inj hstep
    have hshadows := h.shadows.publishFlush (hfile T.info rfl) hdumps
    obtain ⟨B', ps'', q', D', l', hnext⟩ := hsound.step (a := .publish) (fun _ _ hkey => hkey.1)
      trivial hpublish
    exact ⟨_, hsound', hshadows, ⟨B', ps'', q', D', l', hnext.turn trivial hnext.shows rfl⟩,
      (h.reads.step hsound (a := .publish) (Threads.indexed_of_none rfl) hpublish).calm
        (calm_turn _ (by simp)), h.numbers, h.count⟩
  · rename_i ids added hplaced
    rw [hplaced] at hcreator
    obtain ⟨hplace, hfile⟩ := hcreator
    rw [hplace] at hc
    obtain ⟨front, inputs, back, gone, out, hsel, hmerges, rfl, hadds⟩ := hc
    obtain ⟨e', removed, hpub, -⟩ := hsound.stored.compact hutf8 hsel hmerges hadds
    have hpublish : s.step .publish =
        some { s with engine := e', creator := .deleting removed } := by
      show s.publish = _
      rw [Threads.publish, hplace]
      dsimp only
      rw [hpub]
    obtain ⟨hdumps, rfl, rfl⟩ := publishCompaction_ok hpub
    obtain rfl := Option.some.inj hstep
    exact ⟨_, h.along (a := .publish) trivial (Threads.indexed_of_none rfl) hpublish hsound'
      (h.shadows.publishCompaction hfile hdumps)⟩
  · cases hstep

/-- One step of the process, with the threads behind it. -/
theorem Tracked.step (h : Tracked config most o s) (hsized : ∀ n ≤ most, (config.sst n).Sized)
    {a : Act} (hallows : o.Allows most a) (hstep : o.step a = some o') :
    ∃ s', Tracked config most o' s' := by
  obtain ⟨p', hp', rfl⟩ := Option.map_eq_some_iff.mp hstep
  have hsound := h.sound.step hp'
  obtain ⟨B, ps, q, D, l, hthreads⟩ := h.threads
  have hopen := hthreads.stored.isOpen
  cases a with
  | apply r =>
    rw [Process.step, Process.apply] at hp'
    split at hp'
    · rename_i haccepts
      obtain rfl := Option.some.inj hp'
      exact h.apply hallows haccepts
    · cases hp'
  | rotate => exact h.rotate hallows hp'
  | flush =>
    obtain ⟨s', hs', hshadows⟩ := h.shadows.flush hp'
    exact ⟨s', h.along (a := .flush) trivial (Threads.indexed_of_none rfl) hs' hsound hshadows⟩
  | compact inputs =>
    obtain ⟨s', hs', hshadows⟩ := h.shadows.compact hopen hp'
    exact ⟨s', h.along (a := .compact inputs) trivial (Threads.indexed_of_none rfl) hs' hsound
      hshadows⟩
  | merge now =>
    obtain ⟨s', hs', hshadows⟩ := h.shadows.merge hthreads h.reads.indexed hp'
    exact ⟨s', h.along (a := .merge now) trivial (Threads.indexed_of_none rfl) hs' hsound hshadows⟩
  | name =>
    obtain ⟨s', hs', hshadows⟩ := h.shadows.name hp'
    exact ⟨s', h.along (a := .name) trivial (Threads.indexed_of_none rfl) hs' hsound hshadows⟩
  | place throws now =>
    rcases h.shadows.place (h.images hsized) hp' with hshadows | ⟨s₁, s₂, htemp, hrename, hshadows⟩
    · exact ⟨_, h.abandon hsound hshadows⟩
    · have hthreads' := hthreads.temp htemp
      have hreads := h.reads.step hthreads (a := .temp) (Threads.indexed_of_none rfl) htemp
      exact ⟨s₂, hsound, hshadows, ⟨B, ps, q, D, l, hthreads'.rename hrename⟩,
        hreads.step hthreads' (a := .rename now) (h.indexed hsized htemp now) hrename,
        h.numbers, h.count⟩
  | cancel =>
    rcases h.shadows.cancel h.sound hp' with hshadows | ⟨id, hid, hshadows⟩
    · exact ⟨_, h.abandon hsound hshadows⟩
    · exact ⟨_, h.discard hsound hid hshadows⟩
  | publish fault =>
    obtain rfl : fault = none := hallows
    exact h.publish hp'
  | nextInput =>
    obtain ⟨s', hs', hshadows⟩ := h.shadows.nextInput h.sound hp'
    exact ⟨s', h.along (a := .nextInput) trivial (Threads.indexed_of_none rfl) hs' hsound hshadows⟩
  | unlink =>
    obtain ⟨s', hs', hshadows⟩ := h.shadows.unlink hp'
    exact ⟨s', h.along (a := .unlink) trivial (Threads.indexed_of_none rfl) hs' hsound hshadows⟩
  | evict i =>
    obtain rfl := Option.some.inj hp'
    have hinfos := Process.infos_modify o.process.objects i
    exact ⟨s, hsound, h.shadows.refit hinfos o.process.cache, h.threads, h.reads, h.numbers,
      h.count⟩
  | load key =>
    obtain ⟨s', hs', hshadows⟩ := h.shadows.load hopen hp'
    exact ⟨s', h.along (a := .load key) trivial (Threads.indexed_of_none rfl) hs' hsound hshadows⟩
  | consult i =>
    obtain ⟨s', hs', hshadows⟩ := h.shadows.consult h.reads.indexed h.sound hp'
    obtain ⟨starts, spans, hnote⟩ : ∃ starts spans,
        o.note (.consult i) p' = ⟨p', o.applied, starts, spans⟩ := by
      rw [Timed.note]
      split
      · exact ⟨_, _, rfl⟩
      · exact ⟨_, _, rfl⟩
    rw [hnote] at hshadows ⊢
    exact ⟨s', h.along (a := .consult i) trivial (Threads.indexed_of_none rfl) hs' hsound hshadows⟩

/-- On an empty directory. -/
theorem tracked_open {cache_index_blocks : Bool} {capacity : ℕ} {p : Process}
    (hopen : Process.open config cache_index_blocks capacity [] none ∅ = .ok p) :
    ∃ s, Tracked config most ⟨p, [], [], []⟩ s := by
  have hp := (Process.sound_open (by simp) (by simp) (by simp) hopen).1
  obtain rfl := Except.ok.inj hopen
  have hstart : Engine.open config {} = .ok (Engine.loaded config {}).recover := rfl
  have hsound := Threads.Sound.start (Taken config) hstart
  have hactive : (Engine.loaded config {}).recover.active = config.memtable [] :=
    hsound.stored.active.trans (congrArg (Config.memtable · []) hsound.settings)
  have himmutables : (Engine.loaded config {}).recover.immutables = [] := hsound.stored.immutables
  have hreaders : (Engine.loaded config {}).recover.readers = [] :=
    hsound.stored.holds.readers.symm
  have hversion : (Engine.loaded config {}).recover.version = ⟨[], []⟩ := by
    rw [← himmutables, ← hreaders]
    exact hsound.stored.version
  have hmanifest : (Engine.loaded config {}).recover.manifest = {} := by
    rw [recover_eq]
    rfl
  have hfiles : ∀ id, (Engine.loaded config {}).recover.files.find? id = none := by
    intro id
    rw [recover_eq]
    rfl
  refine ⟨.start (Engine.loaded config {}).recover, hp, {
    config := hsound.settings
    manifest := hmanifest
    active := hactive
    immutables := himmutables
    readers := ?_
    frozen := congrArg Version.immutables hversion
    tables := ?_
    files := fun id => ?_
    published := fun _ hu => nomatch hu
    writer := rfl
    creator := rfl
    gets := .nil
    applied := rfl
    starts := rfl
    answers := .nil
    spans := rfl }, ⟨_, _, _, _, _, hsound⟩, ⟨nofun, nofun, ?_⟩, nofun,
    Nat.zero_le _⟩
  · show List.Forall₂ _ [] (Engine.loaded config {}).recover.readers
    rw [hreaders]
    exact .nil
  · show List.Forall₂ _ [] (Engine.loaded config {}).recover.version.tables
    rw [hversion]
    exact .nil
  · show Option.Rel _ none ((Engine.loaded config {}).recover.files.find? id)
    rw [hfiles]
    exact .none
  · exact misindexed_open hstart

end

/-- Steps of the process in any order. -/
abbrev Timed.Runs (most : ℕ) : Timed → Timed → Prop :=
  Relation.ReflTransGen (fun o o' => ∃ a, o.Allows most a ∧ o.step a = some o')

/-- In one session on an empty directory, whatever the process does: each answer is the value
its key had after some of the mutations, not fewer than when the get started and not more than
when it ended. -/
theorem answers_of_runs {config : Config} {most : ℕ} (hsized : ∀ n ≤ most, (config.sst n).Sized)
    {cache_index_blocks : Bool} {capacity : ℕ} {p : Process}
    (hopen : Process.open config cache_index_blocks capacity [] none ∅ = .ok p) {o : Timed}
    (hruns : Timed.Runs most ⟨p, [], [], []⟩ o) :
    List.Forall₂ (fun a span => ∃ n, span.1 ≤ n ∧ n ≤ span.2 ∧
        a.2 = .ok (lastWritten (o.applied.take n) a.1)) o.process.answers o.spans := by
  obtain ⟨s, hs⟩ : ∃ s, Tracked config most o s := by
    induction hruns with
    | refl => exact tracked_open hopen
    | tail _ hlast ih =>
      obtain ⟨s, hs⟩ := ih
      obtain ⟨a, hallows, hstep⟩ := hlast
      exact hs.step hsized hallows hstep
  have hboth := (List.forall₂_and_left s.answers o.process.answers).mpr
    ⟨hs.reads.answers, hs.shadows.answers.flip⟩
  rw [← hs.shadows.spans, ← hs.shadows.applied]
  refine List.forall₂_map_right_iff.mpr (List.Forall₂.flip (hboth.imp fun b a hba => ?_))
  obtain ⟨hsound, hkey, v, ha, hresult⟩ := hba
  obtain ⟨v', hresult', n, hsince, hupto, hv⟩ := hsound.had
  obtain rfl := Except.ok.inj (hresult.symm.trans hresult')
  exact ⟨n, hsince, hupto, by rw [ha, hkey, hv]⟩

/-- Steps one after another, as long as they are allowed. -/
def Timed.performAll (most : ℕ) (o : Timed) : List Act → Option Timed
  | [] => some o
  | a :: as => if o.Allows most a then (o.step a).bind (fun o' => performAll most o' as) else none

theorem Timed.runs_performAll {most : ℕ} {as : List Act} {o o' : Timed}
    (h : o.performAll most as = some o') : Timed.Runs most o o' := by
  induction as generalizing o with
  | nil =>
    obtain rfl := Option.some.inj h
    exact .refl
  | cons a as ih =>
    rw [performAll] at h
    split at h
    · rename_i hallows
      obtain ⟨o₁, hstep, hrest⟩ := Option.bind_eq_some_iff.mp h
      exact .head ⟨a, hallows, hstep⟩ (ih hrest)
    · cases h

/-- A get starts between two writes of its key and consults the table of the first after the
second, in a file closed meanwhile; another starts after both. -/
def crossingRun : List Act :=
  [.apply ⟨false, [97], [1], 1⟩, .rotate, .flush, .place true 0, .flush, .place false 0,
    .publish none, .load [97], .consult 0, .apply ⟨true, [97], [], 2⟩, .load [97], .evict 0,
    .consult 0, .consult 0, .consult 0]

theorem sized_small (a b c n : ℕ) : ((Config.small a b c).sst n).Sized :=
  ⟨show 4096 ≤ 2 ^ 30 by decide, show 64 ≤ 64 ∧ 64 ≤ 2 ^ 62 by decide,
    show 1 ≤ 1 ∧ 1 < 2 ^ 32 by decide⟩

theorem answers_of_runs_crossingRun : ∃ p o,
    Process.open (Config.small 1 4 1000) true 1000 [] none ∅ = .ok p ∧
    Timed.performAll 2 ⟨p, [], [], []⟩ crossingRun = some o ∧
    o.process.answers.map (fun a => (a.1, a.2.toOption)) =
      [([97], some (some [1])), ([97], some none)] ∧
    o.spans = [(1, 2), (2, 2)] ∧
    List.Forall₂ (fun a span => ∃ n, span.1 ≤ n ∧ n ≤ span.2 ∧
        a.2 = .ok (lastWritten (o.applied.take n) a.1)) o.process.answers o.spans := by
  obtain ⟨p, hopen⟩ : ∃ p, Process.open (Config.small 1 4 1000) true 1000 [] none ∅ = .ok p :=
    ⟨_, rfl⟩
  have hend : ((Process.open (Config.small 1 4 1000) true 1000 [] none ∅).toOption.bind
      (fun p => Timed.performAll 2 ⟨p, [], [], []⟩ crossingRun)).map (fun o =>
        (o.process.answers.map (fun a => (a.1, a.2.toOption)), o.spans)) =
      some ([([97], some (some [1])), ([97], some none)], [(1, 2), (2, 2)]) := by
    decide +kernel
  rw [hopen] at hend
  obtain ⟨o, ho, hend⟩ := Option.map_eq_some_iff.mp hend
  obtain ⟨hanswers, hspans⟩ := Prod.mk.inj hend
  exact ⟨p, o, hopen, ho, hanswers, hspans,
    answers_of_runs (fun n _ => sized_small 1 4 1000 n) hopen (Timed.runs_performAll ho)⟩

end LsmKv
