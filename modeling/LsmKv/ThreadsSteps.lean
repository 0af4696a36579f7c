import LsmKv.ThreadsInvariant

/-!
# Every step keeps what the threads have established

Where the writer and the creator stand, one lemma for each step.
-/

namespace LsmKv
open Sst (TableMeta)
open OrderedMap

/-! ## What the other threads see -/

section
variable {e e' : Engine} {D : List LiveTable}

/-- The writer leaves the tables, and of the immutables the oldest. -/
structure Untouched (e e' : Engine) : Prop where
  manifest : e'.manifest = e.manifest
  files : e'.files = e.files
  config : e'.config = e.config
  tables : e'.version.tables = e.version.tables
  oldest : ∀ m, e.immutables.getLast? = some m → e'.immutables.getLast? = some m

theorem Untouched.adds (h : Untouched e e') {T : LiveTable} (hT : Adds e T) : Adds e' T :=
  ⟨h.manifest.symm ▸ hT.id, h.files.symm ▸ hT.file⟩

theorem Purpose.Sound.untouched {job : Purpose} {mem : Memtable} (hj : job.Sound e D mem)
    (h : Untouched e e') : job.Sound e' D mem := by
  cases job with
  | flush => exact h.oldest mem hj
  | compaction ids => exact hj

theorem Creator.Sound.untouched {c : Creator} (hc : c.Sound e D) (h : Untouched e e') :
    c.Sound e' D := by
  cases c with
  | chosen live ids => exact ⟨hc.1.trans (congrArg Manifest.tables h.manifest.symm), hc.2⟩
  | merged ids final => exact hc
  | named job mem id => exact ⟨h.manifest.symm ▸ hc.1, hc.2.untouched h⟩
  | temp job mem r =>
    obtain ⟨hj, file, hwrite⟩ := hc
    exact ⟨hj.untouched h, file, by rw [h.manifest, h.config]; exact hwrite⟩
  | placed job added =>
    cases job with
    | flush =>
      obtain ⟨T, target, hadded, hT, hrows, ht⟩ := hc
      exact ⟨T, target, hadded, h.adds hT, hrows, h.oldest target ht⟩
    | compaction ids =>
      obtain ⟨front, inputs, back, gone, out, hs, hm, hadded, hout⟩ := hc
      exact ⟨front, inputs, back, gone, out, hs, hm, hadded, fun T hT => h.adds (hout T hT)⟩
  | covered n => exact hc.trans (congrArg Manifest.maxSeqno h.manifest.symm)
  | removing n ids => exact hc.trans (congrArg Manifest.maxSeqno h.manifest.symm)
  | unlinking r rs => exact fun t ht => hc t (h.tables ▸ ht)
  | idle | published | deleting rs => trivial

end

section
variable {l : Wal Record}

/-- Outside a removal the log is as the writer left it. -/
theorem Creator.Shows.eq {w : Wal Record} {c : Creator} (h : c.Shows l w)
    (hc : ∀ n ids, c ≠ .removing n ids) : w = l := by
  cases c with
  | removing n ids => exact absurd rfl (hc n ids)
  | _ => exact h

theorem Creator.Shows.of_eq {w : Wal Record} {c : Creator} (hc : ∀ n ids, c ≠ .removing n ids) :
    c.Shows w w := by
  cases c with
  | removing n ids => exact absurd rfl (hc n ids)
  | _ => rfl

end

/-! ## The writer -/

namespace Threads

section
variable {config : Config} {ok : Bytes → Bytes → Prop} {s s' : Threads} {B : List Record}
  {ps : List (List Record)} {q : List Record} {D : List LiveTable} {l : Wal Record}

/-- The writer goes to another place and touches nothing. -/
theorem Sound.goTo (h : Sound config ok s B ps q D l) {w : Writer}
    (hw : w.Sound l s.applied (ps.flatten ++ q) q)
    (hquiet : ({ s with writer := w } : Threads).inAppend = false) (hb : w.Brings ok)
    (hu : w.unacked = s.writer.unacked) : Sound config ok { s with writer := w } B ps q D l :=
  ⟨h.settings, h.stored, hw, h.shows, h.creator,
    fun hin => absurd (hquiet.symm.trans hin) Bool.false_ne_true, hb, h.keys, hu ▸ h.acked⟩

theorem Sound.submit (h : Sound config ok s B ps q D l) {waits del : Bool} {key value : Bytes}
    (hok : ok key value) (hs : s.submit waits del key value = some s') :
    Sound config ok s' B ps q D l := by
  obtain ⟨e, w, c, gs, A, K, as⟩ := s
  cases w with
  | idle =>
    simp only [Threads.submit] at hs
    split at hs
    · obtain rfl := Option.some.inj hs
      exact h
    split at hs
    · obtain rfl := Option.some.inj hs
      exact h
    split at hs
    · obtain rfl := Option.some.inj hs
      exact h.goTo h.writer rfl hok rfl
    split at hs
    · obtain rfl := Option.some.inj hs
      exact h.goTo h.writer rfl hok rfl
    · obtain rfl := Option.some.inj hs
      exact h
  | _ => simp [Threads.submit] at hs

theorem Sound.resume (h : Sound config ok s B ps q D l) (hs : s.resume = some s') :
    Sound config ok s' B ps q D l := by
  obtain ⟨e, w, c, gs, A, K, as⟩ := s
  cases w with
  | stalled del key value =>
    simp only [Threads.resume] at hs
    split at hs
    · obtain rfl := Option.some.inj hs
      exact h.goTo h.writer rfl h.brings rfl
    · cases hs
  | _ => simp [Threads.resume] at hs

theorem not_removing (h : s.inRemoval = false) : ∀ n ids, s.creator ≠ .removing n ids := by
  intro n ids hc
  rw [Threads.inRemoval, hc] at h
  cases h

/-- The writer changes the log and nothing else. -/
theorem Sound.log (h : Sound config ok s B ps q D l) {l' : Wal Record} {w : Writer}
    (hfree : s.inRemoval = false) (hw : w.Sound l' s.applied (ps.flatten ++ q) q) (hb : w.Brings ok)
    (hu : w.unacked = s.writer.unacked) :
    Sound config ok { s with engine := { s.engine with wal := l' }, writer := w } B ps q D l' :=
  ⟨h.settings, h.stored.wal l', hw, .of_eq (not_removing hfree),
    h.creator.untouched ⟨rfl, rfl, rfl, rfl, fun _ ht => ht⟩, fun _ => hfree, hb, h.keys,
    hu ▸ h.acked⟩

theorem Sound.number (h : Sound config ok s B ps q D l) (hs : s.number = some s') :
    ∃ l', Sound config ok s' B ps q D l' := by
  obtain ⟨e, w, c, gs, A, K, as⟩ := s
  cases w with
  | admitted del key value =>
    simp only [Threads.number] at hs
    split at hs
    · cases hs
    rename_i hfree
    have hwal : e.wal = l := h.shows.eq (not_removing (by simpa using hfree))
    split at hs
    · obtain rfl := Option.some.inj hs
      exact ⟨l, h.goTo h.writer rfl trivial rfl⟩
    · obtain rfl := Option.some.inj hs
      refine ⟨_, h.log (w := .numbered ⟨del, key, value, e.wal.lastSeqno + 1⟩)
        (by simpa using hfree) ?_ h.brings rfl⟩
      have hkeeps : Keeps e.wal A (ps.flatten ++ q) := hwal ▸ h.writer
      split
      · exact ⟨hkeeps.roll, rfl⟩
      · exact ⟨hkeeps, rfl⟩
  | _ => simp [Threads.number] at hs

theorem Sound.write (h : Sound config ok s B ps q D l) (hs : s.write = some s') :
    ∃ l', Sound config ok s' B ps q D l' := by
  obtain ⟨e, w, c, gs, A, K, as⟩ := s
  cases w with
  | numbered r =>
    obtain rfl := Option.some.inj hs
    have hfree := h.mutex rfl
    have hwal : e.wal = l := h.shows.eq (not_removing hfree)
    exact ⟨_, h.log (w := .written r) hfree ⟨l, h.writer.1, h.writer.2, by rw [hwal]⟩ h.brings rfl⟩
  | _ => simp [Threads.write] at hs

theorem Sound.sync (h : Sound config ok s B ps q D l) (hs : s.sync = some s') :
    ∃ l', Sound config ok s' B ps q D l' := by
  obtain ⟨e, w, c, gs, A, K, as⟩ := s
  cases w with
  | written r =>
    obtain rfl := Option.some.inj hs
    have hfree := h.mutex rfl
    have hwal : e.wal = l := h.shows.eq (not_removing hfree)
    obtain ⟨l₀, hkeeps, hr, hl⟩ := h.writer
    have happend : (WalLog.syncPolicy e.wal).acknowledge r.seqno = WalLog.appendRecord r l₀ := by
      rw [hwal, hl]
      rfl
    refine ⟨_, h.log (w := .logged r) hfree ?_ h.brings rfl⟩
    rw [happend]
    exact hkeeps.append hr
  | _ => simp [Threads.sync] at hs

theorem Sound.apply (h : Sound config ok s B ps q D l) (hs : s.apply = some s') :
    ∃ q', Sound config ok s' B ps q' D l := by
  obtain ⟨e, w, c, gs, A, K, as⟩ := s
  cases w with
  | logged r =>
    obtain rfl := Option.some.inj hs
    refine ⟨q ++ [r], h.settings, h.stored.apply r, ⟨?_, by simp⟩, h.shows,
      h.creator.untouched ⟨rfl, rfl, rfl, rfl, fun _ ht => ht⟩, nofun, h.brings, fun a ha => ?_, ?_⟩
    · rw [← List.append_assoc]
      exact h.writer
    · rcases List.mem_append.mp ha with ha | ha
      · exact h.keys a ha
      · exact List.mem_singleton.mp ha ▸ h.brings
    · have hacked := h.acked
      simp only [Writer.unacked, List.append_nil] at hacked
      rw [hacked]
      rfl
  | _ => simp [Threads.apply] at hs

theorem Sound.rotate (h : Sound config ok s B ps q D l) (hs : s.rotate = some s') :
    ∃ ps' q' l', Sound config ok s' B ps' q' D l' := by
  obtain ⟨e, w, c, gs, A, K, as⟩ := s
  cases w with
  | applied r =>
    have hacked : A = (K ++ [r]) ++ [] := by rw [List.append_nil]; exact h.acked
    simp only [Threads.rotate] at hs
    split at hs
    · rename_i hrotates
      split at hs
      · cases hs
      rename_i hfree
      obtain rfl := Option.some.inj hs
      have hfree : (⟨e, .applied r, c, gs, A, K, as⟩ : Threads).inRemoval = false := by
        simpa using hfree
      have hwal : e.wal = l := h.shows.eq (not_removing hfree)
      obtain ⟨hkeeps, hr⟩ := h.writer
      have hroll : (WalLog.roll e.wal).1 = WalLog.rollSegment l := by
        rw [hwal, WalLog.roll, hkeeps.isOpen]
        rfl
      have hrotate := Threads.maybeRotate_of_rotates hrotates
      refine ⟨ps ++ [q], [], WalLog.rollSegment l, hrotate ▸ h.settings,
        h.stored.rotate hrotates (List.ne_nil_of_mem hr), ?_, ?_, ?_, by simp [inAppend], trivial,
        h.keys, hacked⟩
      · have hflatten : (ps ++ [q]).flatten ++ [] = ps.flatten ++ q := by simp
        rw [hflatten]
        exact hkeeps.roll
      · rw [hrotate]
        show c.Shows _ (WalLog.roll e.wal).1
        rw [hroll]
        exact .of_eq (not_removing hfree)
      · rw [hrotate]
        refine h.creator.untouched ⟨rfl, rfl, rfl, ?_, fun m hm => ?_⟩
        · rw [h.stored.version]
        · show (e.active :: e.immutables).getLast? = some m
          rw [List.getLast?_cons, hm]
          rfl
    · obtain rfl := Option.some.inj hs
      exact ⟨ps, q, l, h.settings, h.stored, h.writer.1, h.shows, h.creator, by simp [inAppend],
        trivial, h.keys,
        hacked⟩
  | _ => simp [Threads.rotate] at hs

end

/-! ## Flushes and compactions -/

section
variable {config : Config} {ok : Bytes → Bytes → Prop} {s s' : Threads} {B : List Record}
  {ps : List (List Record)} {q : List Record} {D : List LiveTable} {l : Wal Record}

/-- The creator goes to another place and touches nothing. -/
theorem Sound.turn (h : Sound config ok s B ps q D l) {c : Creator} (hc : c.Sound s.engine D)
    (hshows : c.Shows l s.engine.wal)
    (hfree : ({ s with creator := c } : Threads).inRemoval = false) :
    Sound config ok { s with creator := c } B ps q D l :=
  ⟨h.settings, h.stored, h.writer, hshows, hc, fun _ => hfree, h.brings, h.keys, h.acked⟩

theorem Sound.flush (h : Sound config ok s B ps q D l) (hs : s.flush = some s') :
    Sound config ok s' B ps q D l := by
  rw [Threads.flush] at hs
  split at hs
  · rename_i hidle
    have hshows := h.shows
    rw [hidle] at hshows
    split at hs
    · obtain rfl := Option.some.inj hs
      exact h
    · rename_i target htarget
      obtain rfl := Option.some.inj hs
      exact h.turn ⟨rfl, htarget⟩ hshows rfl
  · cases hs

theorem Sound.compact (h : Sound config ok s B ps q D l) {inputs : Option (List ℕ)}
    (hs : s.compact inputs = some s') : Sound config ok s' B ps q D l := by
  rw [Threads.compact] at hs
  split at hs
  · rename_i hidle
    have hshows := h.shows
    rw [hidle] at hshows
    split at hs
    · obtain rfl := Option.some.inj hs
      exact h
    split at hs
    · obtain rfl := Option.some.inj hs
      exact h
    · obtain rfl := Option.some.inj hs
      exact h
    · rename_i ids hchoice
      obtain rfl := Option.some.inj hs
      exact h.turn ⟨rfl, h.stored.holds.selects hchoice⟩ hshows rfl
  · cases hs

theorem Sound.merge (h : Sound config ok s B ps q D l) {now : ℕ} (hs : s.merge now = some s') :
    Sound config ok s' B ps q D l := by
  rw [Threads.merge] at hs
  split at hs
  · rename_i live ids hchosen
    have hc := h.creator
    have hshows := h.shows
    rw [hchosen] at hc hshows
    obtain ⟨rfl, front, inputs, back, hsel⟩ := hc
    obtain ⟨final, merged, n, hmerge, hrows⟩ := h.stored.holds.mergeInputs hsel now
    have hgone : ∀ r, s.engine.drops ids now r = true → r.tombstone = true ∧
        ∀ T ∈ front ++ back, r.seqno < T.info.minSeqno :=
      fun r hr => h.stored.holds.of_drops hsel hr
    rw [show Threads.snapshot s.engine.manifest.tables s.engine = s.engine from rfl] at hs
    split at hs
    · obtain rfl := Option.some.inj hs
      exact h.turn trivial hshows rfl
    rename_i final' rest hscan
    obtain ⟨rfl, -⟩ := Prod.mk.inj (Except.ok.inj (hmerge.symm.trans (scanInputs_ok hscan)))
    split at hs
    · rename_i hempty
      obtain rfl := Option.some.inj hs
      refine h.turn ?_ hshows rfl
      refine ⟨front, inputs, back, s.engine.drops ids now, none, hsel, ⟨fun k => ?_,
        fun r hr => (hgone r hr).1, fun r hr => (hgone r hr).2⟩, rfl, nofun⟩
      rw [← hrows k]
      exact (find?_eq_none_iff.mpr (by simp [List.length_eq_zero_iff.mp hempty])).symm
    · obtain rfl := Option.some.inj hs
      exact h.turn ⟨front, inputs, back, _, hsel, hrows, hgone⟩ hshows rfl
  · cases hs

theorem Sound.name (h : Sound config ok s B ps q D l) (hs : s.name = some s') :
    Sound config ok s' B ps q D l := by
  rw [Threads.name] at hs
  split at hs
  · rename_i ids final hmerged
    have hc := h.creator
    have hshows := h.shows
    rw [hmerged] at hc hshows
    obtain rfl := Option.some.inj hs
    exact h.turn ⟨rfl, hc⟩ hshows rfl
  · cases hs

theorem Sound.temp (h : Sound config ok s B ps q D l) (hs : s.temp = some s') :
    Sound config ok s' B ps q D l := by
  rw [Threads.temp] at hs
  split at hs
  · rename_i job mem id hnamed
    have hc := h.creator
    have hshows := h.shows
    rw [hnamed] at hc hshows
    obtain ⟨rfl, hjob⟩ := hc
    split at hs
    · cases hs
    · obtain rfl := Option.some.inj hs
      exact h.turn trivial hshows rfl
    · rename_i r file hwrite
      obtain rfl := Option.some.inj hs
      exact ⟨h.settings, h.stored.temps _, h.writer, hshows,
        ⟨hjob.untouched ⟨rfl, rfl, rfl, rfl, fun _ ht => ht⟩, file, hwrite⟩, fun _ => rfl, h.brings,
        h.keys, h.acked⟩
  · cases hs

theorem Sound.rename (h : Sound config ok s B ps q D l) {now : ℕ} (hs : s.rename now = some s') :
    Sound config ok s' B ps q D l := by
  rw [Threads.rename] at hs
  split at hs
  · rename_i job mem r htemp
    have hc := h.creator
    have hshows := h.shows
    rw [htemp] at hc hshows
    obtain ⟨hjob, file, hwrite⟩ := hc
    obtain ⟨hid, T, hinfo, hrows⟩ := exists_liveTable hwrite now
    obtain rfl := Option.some.inj hs
    have hTid : T.info.id = s.engine.manifest.nextSstId := hinfo ▸ hid
    refine ⟨h.settings, ?_, h.writer, hshows, ?_, fun _ => rfl, h.brings, h.keys, h.acked⟩
    · exact hid ▸ (h.stored.place mem).temps (s.engine.temps.erase r.id)
    · have hadds : Adds { s.engine.placeFile r.id mem with
          temps := s.engine.temps.erase r.id } T := by
        refine ⟨hTid, ?_⟩
        show (s.engine.files.insert r.id mem.map).find? T.info.id = _
        rw [hid, hTid, find?_insert_self, hrows]
      cases job with
      | flush => exact ⟨T, mem, congrArg some hinfo.symm, hadds, hrows, hjob⟩
      | compaction ids =>
        obtain ⟨front, inputs, back, gone, hsel, hmerge, hgone⟩ := hjob
        refine ⟨front, inputs, back, gone, some T, hsel, ⟨fun k => ?_, fun r hr => (hgone r hr).1,
          fun r hr => (hgone r hr).2⟩, congrArg some hinfo, fun U hU => ?_⟩
        · rw [Option.toList_some, tableHit_cons, tableHit_nil, Option.or_none, hrows]
          exact hmerge k
        · obtain rfl := Option.some.inj hU
          exact hadds
  · cases hs

/-- The mutations in the tables and at or below the watermark are older than those a memtable or
the log alone has. -/
theorem Sound.removeFirst (h : Sound config ok s B ps q D l) (hquiet : s.inAppend = false) {n : ℕ}
    (hn : n = s.engine.manifest.maxSeqno) (k : ℕ) :
    s.writer.Sound (l.removeFirst n k) s.applied (ps.flatten ++ q) q := by
  have hA := h.writer.ascending
  have hB : ∀ a ∈ B, a ∈ s.applied := fun a ha =>
    h.stored.applied ▸ List.mem_append_left _ ha
  have hrest : ∀ {L : List Record}, Keeps l L (ps.flatten ++ q) → ∀ r ∈ ps.flatten ++ q,
      n < r.seqno := by
    intro L hkeeps r hr
    rw [hn]
    exact h.stored.watermark_lt (h.stored.older hA hr)
      (hkeeps.positive r (hkeeps.suffix.subset (hkeeps.rest.subset hr)))
  have hw := h.writer
  rw [Threads.inAppend] at hquiet
  rcases hwriter : s.writer with _ | ⟨del, key, value⟩ | ⟨del, key, value⟩ | r | r | r | r <;>
    rw [hwriter] at hw hquiet
  · exact Keeps.removeFirst hw (hrest hw) k
  · exact Keeps.removeFirst hw (hrest hw) k
  · exact Keeps.removeFirst hw (hrest hw) k
  · cases hquiet
  · cases hquiet
  · have hkeeps : Keeps l (s.applied ++ [r]) (ps.flatten ++ q ++ [r]) := hw
    refine hkeeps.removeFirst (fun a ha => ?_) k
    have hpos := hkeeps.positive a (hkeeps.suffix.subset (hkeeps.rest.subset ha))
    rw [hn]
    refine h.stored.watermark_lt (fun b hb => ?_) hpos
    rcases List.mem_append.mp ha with ha | ha
    · exact h.stored.older hA ha b hb
    · exact (List.pairwise_append.mp hkeeps.ascending).2.2 b (hB b hb) a ha
  · exact ⟨hw.1.removeFirst (hrest hw.1) k, hw.2⟩

theorem Sound.publish (h : Sound config ok s B ps q D l)
    (hok : ∀ key value, ok key value → config.isUtf8 key = true) (hs : s.publish = some s') :
    ∃ B' ps' D', Sound config ok s' B' ps' q D' l := by
  have hutf8 : ∀ r ∈ s.applied, s.engine.config.isUtf8 r.key = true := by
    rw [h.settings]
    exact fun r hr => hok r.key r.value (h.keys r hr)
  have hA := h.writer.ascending
  have hc := h.creator
  have hshows := h.shows
  rw [Threads.publish] at hs
  split at hs
  · rename_i info hplaced
    rw [hplaced] at hc hshows
    obtain ⟨T, target, hinfo, hT, hrows, ht⟩ := hc
    obtain rfl := Option.some.inj hinfo
    obtain ⟨e', p, ps', hpub, rfl, hwal, hconfig, hstored⟩ := h.stored.flush hA hutf8 hT hrows ht
    rw [hpub] at hs
    obtain rfl := Option.some.inj hs
    refine ⟨B ++ p, ps', T :: D, hconfig.trans h.settings, hstored, ?_, hwal.trans hshows, trivial,
      fun _ => rfl, h.brings, h.keys, h.acked⟩
    refine h.writer.shrink ?_
    rw [List.flatten_cons, List.append_assoc]
    exact List.suffix_append p _
  · rename_i ids added hplaced
    rw [hplaced] at hc hshows
    obtain ⟨front, inputs, back, gone, out, hsel, hmerges, rfl, hadds⟩ := hc
    obtain ⟨e', removed, hpub, hwal, hconfig, hstored⟩ := h.stored.compact hutf8 hsel hmerges hadds
    rw [hpub] at hs
    obtain rfl := Option.some.inj hs
    exact ⟨B, ps, _, hconfig.trans h.settings, hstored, h.writer, hwal.trans hshows, trivial,
      fun _ => rfl, h.brings, h.keys, h.acked⟩
  · cases hs

theorem Sound.watermark (h : Sound config ok s B ps q D l) (hs : s.watermark = some s') :
    Sound config ok s' B ps q D l := by
  rw [Threads.watermark] at hs
  split at hs
  · rename_i hpublished
    have hshows := h.shows
    rw [hpublished] at hshows
    obtain rfl := Option.some.inj hs
    exact h.turn rfl hshows rfl
  · cases hs

theorem Sound.remove (h : Sound config ok s B ps q D l) (hs : s.remove = some s') :
    Sound config ok s' B ps q D l := by
  rw [Threads.remove] at hs
  split at hs
  · rename_i n hcovered
    have hc := h.creator
    have hshows := h.shows
    rw [hcovered] at hc hshows
    split at hs
    · cases hs
    rename_i hquiet
    obtain rfl := Option.some.inj hs
    refine ⟨h.settings, h.stored, h.writer, ⟨0, ?_, ?_⟩, hc, fun hin => absurd hin hquiet, h.brings,
      h.keys, h.acked⟩
    · exact hshows.trans (by rw [Wal.removeFirst, List.take_zero]; rfl)
    · rw [List.drop_zero, show s.engine.wal = l from hshows]
  · cases hs

theorem Sound.nextSegment (h : Sound config ok s B ps q D l) (hs : s.nextSegment = some s') :
    ∃ l', Sound config ok s' B ps q D l' := by
  have hc := h.creator
  have hshows := h.shows
  have hmutex := h.mutex
  rw [Threads.inRemoval] at hmutex
  rw [Threads.nextSegment] at hs
  split at hs
  · rename_i n hremoving
    rw [hremoving] at hc hshows hmutex
    obtain ⟨k, hwal, -⟩ := hshows
    obtain rfl := Option.some.inj hs
    have hquiet : s.inAppend = false := by
      by_contra hin
      cases hmutex (by simpa using hin)
    exact ⟨_, h.settings, h.stored, h.removeFirst hquiet hc k, hwal, trivial, fun _ => rfl,
      h.brings, h.keys, h.acked⟩
  · rename_i n id ids hremoving
    rw [hremoving] at hc hshows hmutex
    obtain ⟨k, hwal, hids⟩ := hshows
    obtain rfl := Option.some.inj hs
    refine ⟨l, h.settings, h.stored.wal _, h.writer, ⟨k + 1, ?_, ?_⟩, hc, hmutex, h.brings,
      h.keys, h.acked⟩
    · have hid : l.dir.keys[k]? = some id := by rw [← List.head?_drop, ← hids]; rfl
      rw [hwal, Wal.removeFirst, Wal.removeFirst, List.take_add_one, hid, List.foldl_append]
      rfl
    · rw [← List.tail_drop, ← hids]
      rfl
  · cases hs

theorem Sound.nextInput (h : Sound config ok s B ps q D l) (hs : s.nextInput = some s') :
    Sound config ok s' B ps q D l := by
  have hshows := h.shows
  rw [Threads.nextInput] at hs
  split at hs
  · rename_i hdeleting
    rw [hdeleting] at hshows
    obtain rfl := Option.some.inj hs
    exact h.turn trivial hshows rfl
  · rename_i r rs hdeleting
    rw [hdeleting] at hshows
    split at hs
    · obtain rfl := Option.some.inj hs
      exact h.turn trivial hshows rfl
    · rename_i hfree
      obtain rfl := Option.some.inj hs
      refine h.turn (fun t ht hid => hfree ?_) hshows rfl
      have hlists : s.engine.version.tables.any (fun t => t.id = r.id) = true :=
        List.any_eq_true.mpr ⟨t, ht, decide_eq_true hid⟩
      exact List.any_eq_true.mpr ⟨_, List.mem_cons_self, hlists⟩
  · cases hs

theorem Sound.unlink (h : Sound config ok s B ps q D l) (hs : s.unlink = some s') :
    Sound config ok s' B ps q D l := by
  have hc := h.creator
  have hshows := h.shows
  rw [Threads.unlink] at hs
  split at hs
  · rename_i r rs hunlinking
    rw [hunlinking] at hc hshows
    obtain rfl := Option.some.inj hs
    exact ⟨h.settings, h.stored.erase hc, h.writer, hshows, trivial, fun _ => rfl, h.brings, h.keys,
      h.acked⟩
  · cases hs

/-! ## All steps -/

theorem Sound.load (h : Sound config ok s B ps q D l) {key : Bytes}
    (hs : s.load key = some s') : Sound config ok s' B ps q D l := by
  rw [Threads.load] at hs
  split at hs
  · cases hs
  split at hs
  · cases hs
  · obtain rfl := Option.some.inj hs
    exact ⟨h.settings, h.stored, h.writer, h.shows, h.creator, h.mutex, h.brings, h.keys, h.acked⟩

theorem Sound.consult (h : Sound config ok s B ps q D l) {i : ℕ}
    (hs : s.consult i = some s') : Sound config ok s' B ps q D l := by
  rw [Threads.consult] at hs
  split at hs
  · cases hs
  split at hs
  · obtain rfl := Option.some.inj hs
    exact ⟨h.settings, h.stored, h.writer, h.shows, h.creator, h.mutex, h.brings, h.keys, h.acked⟩
  · obtain rfl := Option.some.inj hs
    exact ⟨h.settings, h.stored, h.writer, h.shows, h.creator, h.mutex, h.brings, h.keys, h.acked⟩

theorem Sound.step (h : Sound config ok s B ps q D l)
    (hok : ∀ key value, ok key value → config.isUtf8 key = true) {a : Action}
    (ha : Threads.Brings ok a) (hs : s.step a = some s') :
    ∃ B' ps' q' D' l', Sound config ok s' B' ps' q' D' l' := by
  cases a with
  | submit waits del key value => exact ⟨_, _, _, _, _, h.submit ha.1 hs⟩
  | resume => exact ⟨_, _, _, _, _, h.resume hs⟩
  | number => exact ⟨_, _, _, _, h.number hs⟩
  | write => exact ⟨_, _, _, _, h.write hs⟩
  | sync => exact ⟨_, _, _, _, h.sync hs⟩
  | apply =>
    obtain ⟨q', h'⟩ := h.apply hs
    exact ⟨_, _, q', _, _, h'⟩
  | rotate =>
    obtain ⟨ps', q', l', h'⟩ := h.rotate hs
    exact ⟨_, ps', q', _, l', h'⟩
  | flush => exact ⟨_, _, _, _, _, h.flush hs⟩
  | compact inputs => exact ⟨_, _, _, _, _, h.compact hs⟩
  | merge now => exact ⟨_, _, _, _, _, h.merge hs⟩
  | name => exact ⟨_, _, _, _, _, h.name hs⟩
  | temp => exact ⟨_, _, _, _, _, h.temp hs⟩
  | rename now => exact ⟨_, _, _, _, _, h.rename hs⟩
  | publish =>
    obtain ⟨B', ps', D', h'⟩ := h.publish hok hs
    exact ⟨B', ps', _, D', _, h'⟩
  | watermark => exact ⟨_, _, _, _, _, h.watermark hs⟩
  | remove => exact ⟨_, _, _, _, _, h.remove hs⟩
  | nextSegment => exact ⟨_, _, _, _, h.nextSegment hs⟩
  | nextInput => exact ⟨_, _, _, _, _, h.nextInput hs⟩
  | unlink => exact ⟨_, _, _, _, _, h.unlink hs⟩
  | load key => exact ⟨_, _, _, _, _, h.load hs⟩
  | consult i => exact ⟨_, _, _, _, _, h.consult hs⟩

end

/-- On an empty directory nothing is applied and nothing is in the way. -/
theorem Sound.start {config : Config} (ok : Bytes → Bytes → Prop) {e : Engine}
    (h : Engine.open config {} = .ok e) :
    Sound config ok (.start e) [] [] [] [] e.wal := by
  obtain ⟨M, hperm, -, hholds⟩ := exists_loaded disk_holds_empty config
  obtain rfl := eq_of_open h
  obtain rfl := List.perm_nil.mp hperm
  have hrec : Recovers config {} (Engine.loaded config {}).recover :=
    recovers_recover config (fun _ hp => nomatch hp) (fun _ hr => nomatch hr) .nil
  have hconfig : (Engine.loaded config {}).recover.config = config := by rw [recover_eq]; rfl
  have hrecords : WalLog.records (Engine.loaded config {}).recover.wal.dir = [] := hrec.records
  refine ⟨hconfig, ⟨rfl, congrArg Memtables.immutables hrec.memtables, ?_, nofun, ?_, ?_, hholds,
    ?_, nofun, nofun, fun k => rfl⟩, ?_, rfl, trivial, nofun, trivial, nofun, rfl⟩
  · have hactive : (Engine.loaded config {}).recover.active = config.memtable [] :=
      congrArg Memtables.active hrec.memtables
    exact hactive.trans (congrArg (Config.memtable · []) hconfig.symm)
  · rw [recover_eq]
    rfl
  · rw [recover_eq]
    rfl
  · exact newest_iff.mpr .nil
  · exact ⟨hrec.log, hrec.isOpen, .nil, nofun, nofun, hrecords ▸ List.suffix_refl _,
      List.nil_suffix⟩

end Threads
end LsmKv
