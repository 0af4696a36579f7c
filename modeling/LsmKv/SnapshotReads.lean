import LsmKv.ThreadsSteps

/-!
# Reads while tables come and go

A get holds on to the version it loaded. The mutations before that version's active memtable are
fixed by the version, those in the memtable grow until it is rotated out, and the files of its
tables stay. So what a get finds is what its key had at a moment between its load and its end.
-/

namespace LsmKv
open Sst (TableMeta)
open OrderedMap

/-! ## What gets see of the other threads -/

section
variable {config : Config} {ok : Bytes → Bytes → Prop} {s s' : Threads} {B : List Record}
  {ps : List (List Record)} {q : List Record} {D : List LiveTable} {l : Wal Record}

/-- A step that leaves the gets, the memtables and all files but one that no snapshot has. -/
structure Calm (s s' : Threads) : Prop where
  gets : s'.gets = s.gets
  applied : s'.applied = s.applied
  answers : s'.answers = s.answers
  settings : s'.engine.config = s.engine.config
  active : s'.engine.active = s.engine.active
  next : s.engine.manifest.nextSstId ≤ s'.engine.manifest.nextSstId
  files : ∀ id < s.engine.manifest.nextSstId, (∀ r rs, s.creator = .unlinking r rs → r.id ≠ id) →
    s'.engine.files.find? id = s.engine.files.find? id
  misindexed : s'.engine.misindexed = s.engine.misindexed
  unlinking : ∀ r rs, s'.creator = .unlinking r rs → s.creator = .unlinking r rs ∨
    s.referenced r = false

theorem Calm.refl (s : Threads) : Calm s s :=
  ⟨rfl, rfl, rfl, rfl, rfl, le_rfl, fun _ _ _ => rfl, rfl, fun _ _ h => .inl h⟩

theorem calm_goTo (s : Threads) (w : Writer) : Calm s { s with writer := w } :=
  ⟨rfl, rfl, rfl, rfl, rfl, le_rfl, fun _ _ _ => rfl, rfl, fun _ _ h => .inl h⟩

theorem calm_log (s : Threads) (w : Writer) (l : Wal Record) :
    Calm s { s with engine := { s.engine with wal := l }, writer := w } :=
  ⟨rfl, rfl, rfl, rfl, rfl, le_rfl, fun _ _ _ => rfl, rfl, fun _ _ h => .inl h⟩

theorem calm_turn (s : Threads) {c : Creator} (hc : ∀ r rs, c ≠ .unlinking r rs) :
    Calm s { s with creator := c } :=
  ⟨rfl, rfl, rfl, rfl, rfl, le_rfl, fun _ _ _ => rfl, rfl, fun r rs h => absurd h (hc r rs)⟩

theorem calm_submit {waits del : Bool} {key value : Bytes}
    (hs : s.submit waits del key value = some s') : Calm s s' := by
  rw [Threads.submit] at hs
  split at hs
  · split at hs
    · obtain rfl := Option.some.inj hs
      exact .refl s
    split at hs
    · obtain rfl := Option.some.inj hs
      exact .refl s
    split at hs
    · obtain rfl := Option.some.inj hs
      exact calm_goTo s _
    split at hs
    · obtain rfl := Option.some.inj hs
      exact calm_goTo s _
    · obtain rfl := Option.some.inj hs
      exact .refl s
  · cases hs

theorem calm_resume (hs : s.resume = some s') : Calm s s' := by
  rw [Threads.resume] at hs
  split at hs
  · split at hs
    · obtain rfl := Option.some.inj hs
      exact calm_goTo s _
    · cases hs
  · cases hs

theorem calm_number (hs : s.number = some s') : Calm s s' := by
  rw [Threads.number] at hs
  split at hs
  · split at hs
    · cases hs
    split at hs
    · obtain rfl := Option.some.inj hs
      exact calm_goTo s _
    · obtain rfl := Option.some.inj hs
      exact calm_log s _ _
  · cases hs

theorem calm_write (hs : s.write = some s') : Calm s s' := by
  rw [Threads.write] at hs
  split at hs
  · obtain rfl := Option.some.inj hs
    exact calm_log s _ _
  · cases hs

theorem calm_sync (hs : s.sync = some s') : Calm s s' := by
  rw [Threads.sync] at hs
  split at hs
  · obtain rfl := Option.some.inj hs
    exact calm_log s _ _
  · cases hs

theorem calm_flush (hs : s.flush = some s') : Calm s s' := by
  rw [Threads.flush] at hs
  split at hs
  · split at hs
    · obtain rfl := Option.some.inj hs
      exact .refl s
    · obtain rfl := Option.some.inj hs
      exact calm_turn s (by simp)
  · cases hs

theorem calm_compact {inputs : Option (List ℕ)} (hs : s.compact inputs = some s') : Calm s s' := by
  rw [Threads.compact] at hs
  split at hs
  · split at hs
    · obtain rfl := Option.some.inj hs
      exact .refl s
    split at hs
    · obtain rfl := Option.some.inj hs
      exact .refl s
    · obtain rfl := Option.some.inj hs
      exact .refl s
    · obtain rfl := Option.some.inj hs
      exact calm_turn s (by simp)
  · cases hs

theorem calm_merge {now : ℕ} (hs : s.merge now = some s') : Calm s s' := by
  rw [Threads.merge] at hs
  split at hs
  · split at hs
    · obtain rfl := Option.some.inj hs
      exact calm_turn s (by simp)
    split at hs
    · obtain rfl := Option.some.inj hs
      exact calm_turn s (by simp)
    · obtain rfl := Option.some.inj hs
      exact calm_turn s (by simp)
  · cases hs

theorem calm_name (hs : s.name = some s') : Calm s s' := by
  rw [Threads.name] at hs
  split at hs
  · obtain rfl := Option.some.inj hs
    exact calm_turn s (by simp)
  · cases hs

theorem calm_temp (hs : s.temp = some s') : Calm s s' := by
  rw [Threads.temp] at hs
  split at hs
  · split at hs
    · cases hs
    · obtain rfl := Option.some.inj hs
      exact calm_turn s (by simp)
    · obtain rfl := Option.some.inj hs
      exact ⟨rfl, rfl, rfl, rfl, rfl, le_rfl, fun _ _ _ => rfl, rfl, by simp⟩
  · cases hs

theorem Threads.Sound.calm_rename (h : Threads.Sound config ok s B ps q D l) {now : ℕ}
    (hnone : s.engine.misindexed = []) (hindexed : s.Indexed (.rename now))
    (hs : s.rename now = some s') : Calm s s' := by
  rw [Threads.rename] at hs
  split at hs
  · rename_i job mem r htemp
    have hc := h.creator
    rw [htemp] at hc
    obtain ⟨-, file, hwrite⟩ := hc
    have hid := (exists_liveTable hwrite now).1
    obtain rfl := Option.some.inj hs
    refine ⟨rfl, rfl, rfl, rfl, rfl, le_rfl,
      fun id hlt _ => find?_insert_of_ne _ _ (by omega), ?_, by simp⟩
    have hwhole := hindexed mem (by rw [Threads.placing, htemp]; rfl)
    show (if _ then _ else _) = _
    rw [hwhole, hnone]
    rfl
  · cases hs

theorem calm_publish (hs : s.publish = some s') : Calm s s' := by
  obtain ⟨_, _, _, _, _, c, hnext, -, hquiet, rfl⟩ := Threads.publish_cases hs
  exact ⟨rfl, rfl, rfl, rfl, rfl, hnext, fun _ _ _ => rfl, rfl,
    fun r rs hr => absurd hr (hquiet r rs)⟩

theorem calm_watermark (hs : s.watermark = some s') : Calm s s' := by
  rw [Threads.watermark] at hs
  split at hs
  · obtain rfl := Option.some.inj hs
    exact calm_turn s (by simp)
  · cases hs

theorem calm_remove (hs : s.remove = some s') : Calm s s' := by
  rw [Threads.remove] at hs
  split at hs
  · split at hs
    · cases hs
    · obtain rfl := Option.some.inj hs
      exact calm_turn s (by simp)
  · cases hs

theorem calm_nextSegment (hs : s.nextSegment = some s') : Calm s s' := by
  rw [Threads.nextSegment] at hs
  split at hs
  · obtain rfl := Option.some.inj hs
    exact calm_turn s (by simp)
  · obtain rfl := Option.some.inj hs
    exact ⟨rfl, rfl, rfl, rfl, rfl, le_rfl, fun _ _ _ => rfl, rfl, by simp⟩
  · cases hs

theorem calm_nextInput (hs : s.nextInput = some s') : Calm s s' := by
  rw [Threads.nextInput] at hs
  split at hs
  · obtain rfl := Option.some.inj hs
    exact calm_turn s (by simp)
  · split at hs
    · obtain rfl := Option.some.inj hs
      exact calm_turn s (by simp)
    · rename_i hfree
      obtain rfl := Option.some.inj hs
      refine ⟨rfl, rfl, rfl, rfl, rfl, le_rfl, fun _ _ _ => rfl, rfl, ?_⟩
      rintro r rs ⟨⟩
      exact .inr (by simpa using hfree)
  · cases hs

theorem calm_unlink (hs : s.unlink = some s') : Calm s s' := by
  rw [Threads.unlink] at hs
  split at hs
  · rename_i r rs hunlinking
    obtain rfl := Option.some.inj hs
    refine ⟨rfl, rfl, rfl, rfl, rfl, le_rfl, fun id _ hne => ?_, rfl, by simp⟩
    show (s.engine.files.erase r.id).find? id = _
    rw [find?_erase, if_neg (hne r rs hunlinking)]
  · cases hs

end

/-! ## A get in flight -/

/-- After some number of the mutations `A`, between `since` and `upto`, the key has the value. -/
def Had (A : List Record) (since upto : ℕ) (key : Bytes) (v : Option Bytes) : Prop :=
  ∃ n, since ≤ n ∧ n ≤ upto ∧ lastWritten (A.take n) key = v

theorem Had.mono {A A' : List Record} {since upto upto' : ℕ} {key : Bytes} {v : Option Bytes}
    (h : Had A since upto key v) (hupto : upto ≤ A.length) (hA : A <+: A') (hle : upto ≤ upto') :
    Had A' since upto' key v := by
  obtain ⟨n, hsince, hn, hv⟩ := h
  obtain ⟨rest, rfl⟩ := hA
  refine ⟨n, hsince, hn.trans hle, ?_⟩
  rw [List.take_append_of_le_length (hn.trans hupto)]
  exact hv

/-- What a get is still to find, with the mutations `A` applied so far. `D` are the tables of its
version, `A₀` the mutations behind its active memtable. -/
def Get.At (e : Engine) (A : List Record) (D : List LiveTable) (g : Get) : Prop :=
  match g.place with
  | .active => ∃ A₀ q, g.own.getD e.active = e.config.memtable q ∧ A₀ ++ q <+: A ∧
      g.since ≤ (A₀ ++ q).length ∧ (g.own = none → A₀ ++ q = A) ∧
      ((Engine.findMemtables g.key g.version.immutables).or (tableHit g.key D)).bind
        MemEntry.result = lastWritten A₀ g.key
  | .immutables rest => Had A g.since A.length g.key
      (((Engine.findMemtables g.key rest).or (tableHit g.key D)).bind MemEntry.result)
  | .tables rest => ∃ D', D' <:+ D ∧ rest = D'.map (·.info) ∧
      Had A g.since A.length g.key ((tableHit g.key D').bind MemEntry.result)

structure Get.Sound (s : Threads) (g : Get) (D : List LiveTable) : Prop where
  tables : g.version.tables = D.map (·.info)
  files : ∀ T ∈ D, s.engine.files.find? T.info.id = some T.rows
  fresh : ∀ T ∈ D, T.info.id < s.engine.manifest.nextSstId
  kept : ∀ r rs, s.creator = .unlinking r rs → ∀ T ∈ D, r.id ≠ T.info.id
  place : g.At s.engine s.applied D

/-- The answer is the value of the key at a moment of the get. -/
structure Answer.Sound (A : List Record) (a : Answer) : Prop where
  upto : a.upto ≤ A.length
  had : ∃ v, a.result = .ok v ∧ Had A a.since a.upto a.key v

/-- What holds of the gets in flight and of the answers given. -/
structure Threads.Reads (s : Threads) : Prop where
  gets : ∀ g ∈ s.gets, ∃ D, g.Sound s D
  answers : ∀ a ∈ s.answers, a.Sound s.applied
  indexed : s.engine.misindexed = []

section
variable {e : Engine} {A : List Record} {D : List LiveTable} {g : Get} {s s' : Threads}

theorem Get.Sound.calm (h : g.Sound s D) (hc : Calm s s') (hg : g ∈ s.gets) : g.Sound s' D := by
  refine ⟨h.tables, fun T hT => ?_, fun T hT => (h.fresh T hT).trans_le hc.next,
    fun r rs hr T hT => ?_, ?_⟩
  · exact (hc.files _ (h.fresh T hT) (fun r rs hr => h.kept r rs hr T hT)).trans (h.files T hT)
  · rcases hc.unlinking r rs hr with hr | hfree
    · exact h.kept r rs hr T hT
    · intro hid
      have hlists : s.referenced r = true := by
        refine List.any_eq_true.mpr ⟨g.version,
          List.mem_cons_of_mem _ (List.mem_map_of_mem hg), List.any_eq_true.mpr ⟨T.info, ?_, ?_⟩⟩
        · rw [h.tables]
          exact List.mem_map_of_mem hT
        · exact decide_eq_true hid.symm
      rw [hfree] at hlists
      cases hlists
  · have hplace := h.place
    rw [Get.At] at hplace ⊢
    rw [hc.active, hc.settings, hc.applied]
    exact hplace

theorem Threads.Reads.calm (h : s.Reads) (hc : Calm s s') : s'.Reads := by
  refine ⟨fun g hg => ?_, ?_, hc.misindexed.trans h.indexed⟩
  · rw [hc.gets] at hg
    obtain ⟨D, hsound⟩ := h.gets g hg
    exact ⟨D, hsound.calm hc hg⟩
  · rw [hc.answers, hc.applied]
    exact h.answers

/-- One more mutation is applied. -/
theorem Get.At.apply (h : g.At e A D) (r : Record) : g.At (e.apply r) (A ++ [r]) D := by
  have hprefix : A <+: A ++ [r] := List.prefix_append A [r]
  have hle : A.length ≤ (A ++ [r]).length := hprefix.length_le
  rw [Get.At] at h ⊢
  cases hplace : g.place with
  | active =>
    rw [hplace] at h
    obtain ⟨A₀, q, hown, hbegins, hsince, hactive, hrest⟩ := h
    cases hkept : g.own with
    | none =>
      have hall : A₀ ++ (q ++ [r]) = A ++ [r] := by rw [← List.append_assoc, hactive hkept]
      refine ⟨A₀, q ++ [r], ?_, hall ▸ List.prefix_refl _, ?_, fun _ => hall, hrest⟩
      · rw [hkept, Option.getD_none] at hown
        show e.active.applyRecord r = e.config.memtable (q ++ [r])
        rw [hown, e.config.memtable_snoc]
      · rw [hall]
        exact (hactive hkept ▸ hsince).trans hle
    | some m =>
      refine ⟨A₀, q, ?_, hbegins.trans hprefix, hsince, nofun, hrest⟩
      rw [hkept] at hown
      exact hown
  | immutables rest =>
    rw [hplace] at h
    exact h.mono le_rfl hprefix hle
  | tables rest =>
    rw [hplace] at h
    obtain ⟨D', hD', hrest, hhad⟩ := h
    exact ⟨D', hD', hrest, hhad.mono le_rfl hprefix hle⟩

theorem Answer.Sound.apply {a : Answer} (h : a.Sound A) (r : Record) : a.Sound (A ++ [r]) := by
  obtain ⟨v, hresult, hhad⟩ := h.had
  have hprefix : A <+: A ++ [r] := List.prefix_append A [r]
  exact ⟨h.upto.trans hprefix.length_le, v, hresult, hhad.mono h.upto hprefix le_rfl⟩

theorem Threads.Reads.apply (h : s.Reads) (hs : s.apply = some s') : s'.Reads := by
  rw [Threads.apply] at hs
  split at hs
  · rename_i r hlogged
    obtain rfl := Option.some.inj hs
    refine ⟨fun g hg => ?_, fun a ha => (h.answers a ha).apply r, h.indexed⟩
    obtain ⟨D, hsound⟩ := h.gets g hg
    exact ⟨D, hsound.tables, hsound.files, hsound.fresh, hsound.kept, hsound.place.apply r⟩
  · cases hs

/-- The active memtable leaves the store and stays with the get. -/
theorem Get.At.keep (h : g.At e A D) {e' : Engine} (hconfig : e'.config = e.config) :
    (g.keep e.active).At e' A D := by
  rw [Get.At] at h ⊢
  rw [hconfig]
  cases hplace : g.place with
  | active =>
    rw [hplace] at h
    obtain ⟨A₀, q, hown, hbegins, hsince, -, hrest⟩ := h
    rw [Get.keep, hplace]
    exact ⟨A₀, q, hown, hbegins, hsince, nofun, hrest⟩
  | immutables rest =>
    rw [hplace] at h
    rw [Get.keep, hplace]
    exact h
  | tables rest =>
    rw [hplace] at h
    rw [Get.keep, hplace]
    exact h

theorem Threads.Reads.rotate (h : s.Reads) (hs : s.rotate = some s') : s'.Reads := by
  rw [Threads.rotate] at hs
  split at hs
  · split at hs
    · rename_i hrotates
      split at hs
      · cases hs
      obtain rfl := Option.some.inj hs
      rw [Threads.maybeRotate_of_rotates hrotates]
      refine ⟨fun g' hg' => ?_, h.answers, h.indexed⟩
      obtain ⟨g, hg, rfl⟩ := List.mem_map.mp hg'
      obtain ⟨D, hsound⟩ := h.gets g hg
      exact ⟨D, hsound.tables, hsound.files, hsound.fresh, hsound.kept, hsound.place.keep rfl⟩
    · obtain rfl := Option.some.inj hs
      exact h.calm ⟨rfl, rfl, rfl, rfl, rfl, le_rfl, fun _ _ _ => rfl, rfl, fun _ _ h => .inl h⟩
  · cases hs

/-! ## Loading and consulting -/

theorem findMemtables_cons (k : Bytes) (m : Memtable) (ms : List Memtable) :
    Engine.findMemtables k (m :: ms) = (m.find k).or (Engine.findMemtables k ms) := by
  rw [Engine.findMemtables, List.findSome?_cons]
  cases m.find k <;> rfl

/-- What the version says of the mutations before its active memtable. -/
theorem Stored.before {B : List Record} {ps : List (List Record)} {q : List Record}
    (h : Stored e A B ps q D) (k : Bytes) :
    ((Engine.findMemtables k e.immutables).or (tableHit k D)).bind MemEntry.result =
      lastWritten (B ++ ps.flatten) k := by
  rw [h.immutables, findMemtables_pieces, lastWritten, lastRecord_append]
  rcases lastRecord k ps.flatten with _ | z
  · exact h.reads k
  · rfl

theorem Threads.Reads.load (h : s.Reads) {config : Config} {ok : Bytes → Bytes → Prop}
    {B : List Record} {ps : List (List Record)} {q : List Record} {l : Wal Record}
    (hsound : Threads.Sound config ok s B ps q D l) {key : Bytes} (hs : s.load key = some s') :
    s'.Reads := by
  rw [Threads.load] at hs
  split at hs
  · cases hs
  split at hs
  · cases hs
  obtain rfl := Option.some.inj hs
  refine ⟨fun g hg => ?_, h.answers, h.indexed⟩
  rcases List.mem_append.mp hg with hg | hg
  · obtain ⟨D, hg⟩ := h.gets g hg
    exact ⟨D, hg.tables, hg.files, hg.fresh, hg.kept, hg.place⟩
  obtain rfl := List.mem_singleton.mp hg
  have hstored := hsound.stored
  have htables : s.engine.version.tables = D.map (·.info) := by
    rw [hstored.version]
    exact hstored.holds.readers.symm
  have happlied : B ++ ps.flatten ++ q = s.applied := by
    rw [hstored.applied, List.append_assoc]
  refine ⟨D, htables, fun T hT => hstored.holds.files T (List.mem_append_left _ hT),
    fun T hT => hstored.holds.fresh T (List.mem_append_left _ hT), fun r rs hr T hT hid => ?_,
    B ++ ps.flatten, q, hstored.active, happlied ▸ List.prefix_refl _, happlied ▸ le_rfl,
    fun _ => happlied, ?_⟩
  · have hc := hsound.creator
    rw [show s.creator = .unlinking r rs from hr] at hc
    refine hc T.info ?_ hid.symm
    rw [htables]
    exact List.mem_map_of_mem hT
  · show ((Engine.findMemtables key s.engine.version.immutables).or _).bind _ = _
    rw [hstored.version]
    exact hstored.before key

theorem had_take {A B : List Record} (h : B <+: A) {since : ℕ} (hsince : since ≤ B.length)
    (key : Bytes) : Had A since A.length key (lastWritten B key) :=
  ⟨B.length, hsince, h.length_le, by rw [List.prefix_iff_eq_take.mp h |>.symm]⟩

/-- The memtables and tables a get has still to consult, and the turns between them. -/
def Get.left (g : Get) : ℕ :=
  match g.place with
  | .active => g.version.immutables.length + g.version.tables.length + 3
  | .immutables rest => rest.length + g.version.tables.length + 2
  | .tables rest => rest.length + 1

theorem Get.Sound.goTo (h : g.Sound s D) {place : Place}
    (hplace : ({ g with place := place } : Get).At s.engine s.applied D) :
    ({ g with place := place } : Get).Sound s D :=
  ⟨h.tables, h.files, h.fresh, h.kept, hplace⟩

/-- A get goes on with less to do, or it ends with a value its key had. -/
def Get.Advances (s : Threads) (g : Get) (D : List LiveTable) : Prop :=
  (∃ place, g.consult s.engine = .inl { g with place := place } ∧
    ({ g with place := place } : Get).Sound s D ∧
    ({ g with place := place } : Get).left < g.left) ∨
  ∃ v, g.consult s.engine = .inr (.ok v) ∧ Had s.applied g.since s.applied.length g.key v

theorem Get.Sound.consult_active (h : g.Sound s D) (hplace : g.place = .active) :
    g.Advances s D := by
  have hat := h.place
  rw [Get.At, hplace] at hat
  obtain ⟨A₀, q, hown, hbegins, hsince, -, hrest⟩ := hat
  have hhad := had_take hbegins hsince g.key
  rw [lastWritten, lastRecord_append] at hhad
  rw [Get.Advances, Get.consult, Get.left, hplace]
  dsimp only
  rw [hown, find_memtable]
  cases hq : lastRecord g.key q with
  | some z =>
    rw [hq] at hhad
    exact .inr ⟨_, rfl, hhad⟩
  | none =>
    rw [hq, Option.none_or] at hhad
    refine .inl ⟨.immutables g.version.immutables, rfl, h.goTo ?_, Nat.lt_succ_self _⟩
    show Had _ _ _ _ _
    rw [hrest]
    exact hhad

theorem Get.Sound.consult_immutables (h : g.Sound s D) {rest : List Memtable}
    (hplace : g.place = .immutables rest) : g.Advances s D := by
  have hat := h.place
  rw [Get.At, hplace] at hat
  rw [Get.Advances, Get.consult, Get.left, hplace]
  cases rest with
  | nil =>
    exact .inl ⟨.tables g.version.tables, rfl, h.goTo ⟨D, List.suffix_refl D, h.tables, hat⟩,
      by simp [Get.left]⟩
  | cons m rest =>
    dsimp only at hat ⊢
    rw [findMemtables_cons] at hat
    cases hm : m.find g.key with
    | some hit =>
      rw [hm] at hat
      exact .inr ⟨_, rfl, hat⟩
    | none =>
      rw [hm, Option.none_or] at hat
      exact .inl ⟨.immutables rest, rfl, h.goTo hat, by simp [Get.left]⟩

theorem Get.Sound.consult_tables (h : g.Sound s D) (hindexed : s.engine.misindexed = [])
    {rest : List TableMeta} (hplace : g.place = .tables rest) : g.Advances s D := by
  have hat := h.place
  rw [Get.At, hplace] at hat
  obtain ⟨D', hD', rfl, hhad⟩ := hat
  rw [Get.Advances, Get.consult, Get.left, hplace]
  cases D' with
  | nil => exact .inr ⟨none, rfl, hhad⟩
  | cons T D' =>
    have hfile : ∀ U ∈ [T], s.engine.files.find? U.info.id = some U.rows := by
      intro U hU
      obtain rfl := List.mem_singleton.mp hU
      exact h.files U (hD'.subset List.mem_cons_self)
    have hfind : Engine.readTables s.engine.misindexed s.engine.files g.key [T.info] =
        .ok (T.rows.find? g.key) := by
      rw [hindexed, readTables_nil, ← Option.or_none (o := T.rows.find? g.key)]
      exact findTables_eq hfile g.key
    rw [tableHit_cons] at hhad
    rw [List.map_cons]
    dsimp only
    rw [hfind]
    cases hrow : T.rows.find? g.key with
    | some hit =>
      rw [hrow] at hhad
      exact .inr ⟨_, rfl, hhad⟩
    | none =>
      rw [hrow, Option.none_or] at hhad
      exact .inl ⟨.tables (D'.map (·.info)), rfl,
        h.goTo ⟨D', (List.suffix_cons T D').trans hD', rfl, hhad⟩, by simp [Get.left]⟩

theorem Get.Sound.consult (h : g.Sound s D) (hindexed : s.engine.misindexed = []) :
    g.Advances s D := by
  cases hplace : g.place with
  | active => exact h.consult_active hplace
  | immutables rest => exact h.consult_immutables hplace
  | tables rest => exact h.consult_tables hindexed hplace

theorem Threads.Reads.consult (h : s.Reads) {i : ℕ} (hs : s.consult i = some s') : s'.Reads := by
  rw [Threads.consult] at hs
  split at hs
  · cases hs
  rename_i g hi
  obtain ⟨D, hg⟩ := h.gets g (List.mem_of_getElem? hi)
  rcases hg.consult h.indexed with ⟨place, hstep, hnext, -⟩ | ⟨v, hstep, hhad⟩ <;> rw [hstep] at hs
  · obtain rfl := Option.some.inj hs
    refine ⟨fun g' hg' => ?_, h.answers, h.indexed⟩
    rcases List.mem_or_eq_of_mem_set hg' with hg' | rfl
    · obtain ⟨D', hsound⟩ := h.gets g' hg'
      exact ⟨D', hsound.tables, hsound.files, hsound.fresh, hsound.kept, hsound.place⟩
    · exact ⟨D, hnext.tables, hnext.files, hnext.fresh, hnext.kept, hnext.place⟩
  · obtain rfl := Option.some.inj hs
    refine ⟨fun g' hg' => ?_, fun a ha => ?_, h.indexed⟩
    · obtain ⟨D', hsound⟩ := h.gets g' (List.mem_of_mem_eraseIdx hg')
      exact ⟨D', hsound.tables, hsound.files, hsound.fresh, hsound.kept, hsound.place⟩
    · rcases List.mem_append.mp ha with ha | ha
      · exact h.answers a ha
      · obtain rfl := List.mem_singleton.mp ha
        exact ⟨le_rfl, v, rfl, hhad⟩

/-! ## Runs -/

theorem Threads.Reads.step (h : s.Reads) {config : Config} {ok : Bytes → Bytes → Prop}
    {B : List Record} {ps : List (List Record)} {q : List Record} {l : Wal Record}
    (hsound : Threads.Sound config ok s B ps q D l) {a : Action} (ha : s.Indexed a)
    (hs : s.step a = some s') : s'.Reads := by
  cases a with
  | submit waits del key value => exact h.calm (calm_submit hs)
  | resume => exact h.calm (calm_resume hs)
  | number => exact h.calm (calm_number hs)
  | write => exact h.calm (calm_write hs)
  | sync => exact h.calm (calm_sync hs)
  | apply => exact h.apply hs
  | rotate => exact h.rotate hs
  | flush => exact h.calm (calm_flush hs)
  | compact inputs => exact h.calm (calm_compact hs)
  | merge now => exact h.calm (calm_merge hs)
  | name => exact h.calm (calm_name hs)
  | temp => exact h.calm (calm_temp hs)
  | rename now => exact h.calm (hsound.calm_rename h.indexed ha hs)
  | publish => exact h.calm (calm_publish hs)
  | watermark => exact h.calm (calm_watermark hs)
  | remove => exact h.calm (calm_remove hs)
  | nextSegment => exact h.calm (calm_nextSegment hs)
  | nextInput => exact h.calm (calm_nextInput hs)
  | unlink => exact h.calm (calm_unlink hs)
  | load key => exact h.load hsound hs
  | consult i => exact h.consult hs

/-- Let go on, a get ends after at most as many consultations as it has left. -/
theorem Threads.Reads.returns (h : s.Reads) {i : ℕ} (hi : s.gets[i]? = some g) :
    ∃ n ≤ g.left, ∃ s', s.performAll (List.replicate n (.consult i)) = some s' ∧
      s'.gets = s.gets.eraseIdx i := by
  induction hn : g.left using Nat.strong_induction_on generalizing s g with
  | _ n ih =>
    obtain ⟨D, hg⟩ := h.gets g (List.mem_of_getElem? hi)
    rcases hg.consult h.indexed with ⟨place, hstep, -, hlt⟩ | ⟨v, hstep, -⟩
    · have hnext : s.step (.consult i) =
          some { s with gets := s.gets.set i { g with place := place } } := by
        show s.consult i = _
        rw [Threads.consult, hi]
        dsimp only
        rw [hstep]
      have hlen : i < s.gets.length := (List.getElem?_eq_some_iff.mp hi).1
      obtain ⟨k, hk, s', hs', hgets⟩ := ih _ (hn ▸ hlt) (h.consult hnext)
        (List.getElem?_set_self hlen) rfl
      refine ⟨k + 1, by omega, s', ?_, hgets.trans List.eraseIdx_set_eq⟩
      rw [List.replicate_succ, Threads.performAll, hnext]
      exact hs'
    · have hnext : s.step (.consult i) = some { s with
          gets := s.gets.eraseIdx i
          answers := s.answers ++ [⟨g.key, g.since, s.applied.length, .ok v⟩] } := by
        show s.consult i = _
        rw [Threads.consult, hi]
        dsimp only
        rw [hstep]
      have hleft : 1 ≤ g.left := by
        rw [Get.left]
        split <;> omega
      exact ⟨1, hn ▸ hleft, _, congrArg (Option.bind · some) hnext, rfl⟩

end

/-- No write of a table ends the process, gets are not refused, they end with a value their key had
while they ran, and no file of a table they may consult is gone. -/
structure Threads.Linearizable (s : Threads) : Prop where
  writes : s.writing.isSome = true → s.temp.isSome = true
  starts : ∀ key ≠ [], (s.load key).isSome = true
  returns : ∀ (i : ℕ) g, s.gets[i]? = some g → ∃ n ≤ g.left, ∃ s',
    s.performAll (List.replicate n (.consult i)) = some s' ∧ s'.gets = s.gets.eraseIdx i
  answers : ∀ a ∈ s.answers, ∃ n, a.since ≤ n ∧ n ≤ a.upto ∧
    a.result = .ok (lastWritten (s.applied.take n) a.key)
  files : ∀ g ∈ s.gets, ∀ t ∈ g.version.tables, (s.engine.files.find? t.id).isSome = true

theorem Threads.named_of_writing {s : Threads} (h : s.writing.isSome = true) :
    ∃ job mem id, s.creator = .named job mem id := by
  rw [writing] at h
  split at h
  · exact ⟨_, _, _, by assumption⟩
  · cases h

/-- A table gets its id in a step that begins it. -/
theorem Threads.named_of_step {s s' : Threads} {a : Action} (hs : s.step a = some s')
    {job : Purpose} {mem : Memtable} {id : ℕ} (hnamed : s'.creator = .named job mem id) :
    s.creator = .named job mem id ∨ s.begins a = true := by
  cases a with
  | flush =>
    simp only [step, flush] at hs
    split at hs
    · split at hs
      · obtain rfl := Option.some.inj hs
        exact .inl hnamed
      · rename_i target htarget
        have hne : s.engine.immutables ≠ [] := by
          intro hnil
          rw [hnil] at htarget
          cases htarget
        exact .inr (by simpa [begins] using hne)
    · cases hs
  | name => exact .inr rfl
  | submit | resume | number | write | sync | apply | rotate | compact | merge | temp | rename
  | publish | watermark | remove | nextSegment | nextInput | unlink | load | consult =>
    simp only [step, submit, resume, number, write, sync, apply, rotate, compact, merge, temp,
      rename, publish, watermark, remove, nextSegment, nextInput, unlink, load, consult] at hs
    repeat' split at hs
    all_goals first
      | (obtain rfl := Option.some.inj hs
         exact .inl hnamed)
      | (obtain rfl := Option.some.inj hs
         cases hnamed)
      | cases hs

/-- With a restart interval a table that has its id is written. -/
theorem Threads.isSome_temp {s : Threads} (hinterval : s.engine.config.restartInterval ≠ 0)
    {job : Purpose} {mem : Memtable} {id : ℕ} (hnamed : s.creator = .named job mem id) :
    s.temp.isSome = true := by
  rw [temp, hnamed]
  dsimp only
  rw [Sst.writeSstable]
  split
  · rename_i hzero
    split at hzero
    · cases hzero
    · rw [if_neg (show (s.engine.config.sst mem.entries).restartInterval ≠ 0 from hinterval)]
        at hzero
      cases hzero
  · rfl
  · rfl

/-- The threads have done as they should, and so have the gets. -/
def Threads.Settled (config : Config) (s : Threads) : Prop :=
  (∃ B ps q D l, Threads.Sound config (fun key _ => config.isUtf8 key = true) s B ps q D l) ∧
  s.Reads ∧ ∀ job mem id, s.creator = .named job mem id → config.restartInterval ≠ 0

/-- A get holds on to the version with the first table while a write, a flush and a compaction of
both tables go by. -/
def heldRun : List Action := [
  .submit true false [97] [1], .number, .write, .sync, .apply, .rotate,
  .flush, .temp, .rename 5, .publish, .watermark, .remove,
  .nextSegment, .nextSegment, .nextSegment,
  .load [97], .consult 0, .consult 0,
  .submit true false [97] [2], .number, .write, .sync, .apply, .rotate,
  .flush, .temp, .rename 6, .publish, .watermark, .remove,
  .nextSegment, .nextSegment, .nextSegment,
  .compact (some [2, 1]), .merge 9, .name, .temp, .rename 9, .publish,
  .nextInput, .unlink, .nextInput, .nextInput,
  .consult 0]

/-- Nothing checks the restart interval. -/
def noInterval : Config := { Config.small 1 4 1000 with restartInterval := 0 }

end LsmKv
