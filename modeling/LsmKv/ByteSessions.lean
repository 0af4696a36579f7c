import LsmKv.ByteCrashes

/-!
# Sessions over bytes with crashes

Sessions over bytes do what sessions over records and rows do, with the same answers and the same
losses.
-/

namespace LsmKv
open WalFormat

/-! ## Sessions and crashes on one directory -/

/-- A directory at rest, or a store that is open on it. -/
inductive ByteHost where
  | shut (d : ByteDisk)
  | up (s : ByteEngine)

namespace ByteHost

/-- A step of a session or a crash; with the records written so far, less those a crash takes. -/
inductive Suffers (opens : Config → Prop) (ok : ByteEngine → Call → Prop) :
    ByteHost × List Record → ByteHost × List Record → Prop
  | open {config d s rs} (hc : opens config) (h : ByteEngine.open config d = .ok s) :
    Suffers opens ok (.shut d, rs) (.up s, rs)
  | call {s c rs} (h : ok s c) :
    Suffers opens ok (.up s, rs) (.up (s.perform c), rs ++ (s.accepted c).toList)
  | close {s rs} : Suffers opens ok (.up s, rs) (.shut s.close.disk, rs)
  | crash {s d logged added d' rs} (hp : s.Point ok d logged added) (hleft : d.Left d') :
    Suffers opens ok (.up s, rs) (.shut d', (rs ++ added).rdrop (d'.lost logged))
  | crashOpen {config d d₁ d' rs} (hc : opens config) (h : ByteOpening config d d₁)
      (hleft : d₁.Left d') : Suffers opens ok (.shut d, rs) (.shut d', rs)

abbrev Crashing (opens : Config → Prop) (ok : ByteEngine → Call → Prop) :
    ByteHost × List Record → ByteHost × List Record → Prop :=
  Relation.ReflTransGen (Suffers opens ok)

/-- A directory that opens whatever the settings, or a store that finds the last write of every
key. -/
def Reads (rs : List Record) : ByteHost → Prop
  | .shut d => ∀ config, ∃ s, ByteEngine.open config d = .ok s
  | .up s => ∀ k, k ≠ [] → s.get k = .ok (lastWritten rs k)

/-- A crash takes fewer acknowledged records than are written between two syncs. -/
def LosesFew (ok : ByteEngine → Call → Prop) : ByteHost → Prop
  | .shut _ => True
  | .up s => ∀ d logged added, s.Point ok d logged added → ∀ d', d.Left d' →
      d'.lost logged < added.length + max 1 s.engine.config.walFsyncEveryN

end ByteHost

/-! ## Runs -/

namespace ByteHost

def Endures (rs : List Record) : ByteHost → Prop
  | .shut b => ∃ d D, b.Stands d ∧ d.Storable ∧ d.Tells (lastWritten rs) D
  | .up s => ∃ e M D, s.Endures rs e M D

variable {h h' : ByteHost} {rs rs' : List Record}

theorem Endures.reads (hh : h.Endures rs) : h.Reads rs := by
  cases h with
  | shut b =>
    obtain ⟨d, D, hstands, hstorable, htells⟩ := hh
    intro config
    obtain ⟨s, hopen, -⟩ := hstands.open hstorable htells config
    exact ⟨s, hopen⟩
  | up s =>
    obtain ⟨e, M, D, hendures⟩ := hh
    obtain ⟨S, ps, q, htells⟩ := hendures.endures.tells
    have hversion : e.version.tables = e.readers := by rw [htells.version]
    intro k hk
    exact hendures.renders.get hendures.storable htells.isOpen hversion hk
      (htells.holds.findTables k) (htells.get hendures.storable.loads.2 hk)

theorem Endures.losesFew (hh : h.Endures rs) : h.LosesFew ByteEngine.Orderly := by
  cases h with
  | shut b => trivial
  | up s =>
    obtain ⟨e, M, D, hendures⟩ := hh
    exact fun d logged added hp d' hleft => (hendures.crash hp hleft).1

theorem Endures.step {opens : Config → Prop} (hh : h.Endures rs)
    (hs : Suffers opens ByteEngine.Orderly (h, rs) (h', rs')) : h'.Endures rs' := by
  cases hs with
  | @«open» config _ _ _ hc ho =>
    obtain ⟨d, D, hstands, hstorable, htells⟩ := hh
    have hopened := open_of_holds htells.holds hstorable.loads.1 config
    obtain ⟨s, hopen, hrenders⟩ := hstands.open hstorable htells _
    obtain rfl := Except.ok.inj (hopen.symm.trans ho)
    obtain ⟨-, M', hendures⟩ := htells.endures hopened
    exact ⟨_, M', M', hrenders, hstorable.opened htells _, hendures⟩
  | call hc =>
    obtain ⟨e, M, D, hendures⟩ := hh
    obtain ⟨M', D', hnew⟩ := hendures.call hc
    exact ⟨_, M', D', hnew⟩
  | close =>
    obtain ⟨e, M, D, hendures⟩ := hh
    obtain ⟨S, ps, q, htells⟩ := hendures.endures.tells
    obtain ⟨hstands, hstorable⟩ := hendures.renders.close hendures.storable htells
    exact ⟨_, D, hstands, hstorable, htells.close⟩
  | crash hp hleft =>
    obtain ⟨e, M, D, hendures⟩ := hh
    exact (hendures.crash hp hleft).2
  | crashOpen hc ho hleft =>
    obtain ⟨d, D, hstands, hstorable, htells⟩ := hh
    obtain ⟨d', hstands', hstorable', htells'⟩ := hstands.opening hstorable htells ho hleft
    exact ⟨d', D, hstands', hstorable', htells'⟩

end ByteHost

/-- Sessions over bytes from an empty directory, each with settings of its own and ending in a
close or a crash, which may cut a record in two. The store finds in the bytes the last write of
every key, less what the crashes took: each took fewer acknowledged writes than come between two
syncs, and those the last ones. -/
theorem byteReads_of_crashing {h : ByteHost} {rs : List Record}
    (hrun : ByteHost.Crashing (fun _ => True) ByteEngine.Orderly (.shut {}, []) (h, rs)) :
    h.Reads rs ∧ h.LosesFew ByteEngine.Orderly := by
  have hall : ∀ x y, ByteHost.Crashing (fun _ => True) ByteEngine.Orderly x y →
      x.1.Endures x.2 → y.1.Endures y.2 := by
    intro x y hxy hx
    induction hxy with
    | refl => exact hx
    | tail _ hlast ih => exact ih.step hlast
  have hstart : ByteDisk.Stands {} {} := ⟨⟨rfl, rfl, rfl, fun _ => .none⟩, ⟨.nil, nofun⟩⟩
  have hempty : Disk.Storable {} := ⟨Host.loads_empty, nofun, nofun, nofun⟩
  have hs : h.Endures rs := hall _ _ hrun ⟨{}, [], hstart, hempty, disk_tells_empty⟩
  exact ⟨hs.reads, hs.losesFew⟩

/-- The directory with the first `n` bytes of each segment, or as much as was synced. -/
def ByteDisk.torn (n : ℕ) (d : ByteDisk) : ByteDisk :=
  { d with wal := d.wal.map (fun f => .durable (f.data.take (max f.synced n))) }

theorem ByteDisk.left_torn (n : ℕ) (d : ByteDisk) : d.Left (d.torn n) := by
  refine ⟨?_, rfl⟩
  show List.Forall₂ _ d.wal.entries (d.wal.map _).entries
  rw [OrderedMap.entries_map, List.forall₂_map_right_iff, List.forall₂_same]
  exact fun p _ => ⟨rfl, max p.2.synced n, le_max_left _ _, rfl⟩

/-- A crash inside the fourth put, with the third record cut in two. -/
theorem byteReads_of_crashing_torn : ∃ s,
    ByteHost.Crashing (fun _ => True) ByteEngine.Orderly (.shut {}, [])
      (.up s, [⟨false, [97], [1], 1⟩, ⟨false, [98], [2], 2⟩]) ∧
    s.get [98] = .ok (some [2]) ∧ s.get [99] = .ok none := by
  have hstage : ((ByteEngine.open everyOther {}).toOption.map (fun s₀ =>
      let s₁ := s₀.perform (.put [97] [1])
      let s₂ := s₁.perform (.put [98] [2])
      let s₃ := s₂.perform (.put [99] [3])
      let d := (s₃.write (.record 5) .never false [100] [4]).1.disk.torn 70
      decide (([s₀, s₁, s₂, s₃].all (fun s =>
          s.log.lastSeqno + 1 < 2 ^ 64 && s.log.activeId + 2 < 10 ^ 11)) ∧
        (((([] ++ (s₀.accepted (.put [97] [1])).toList) ++ (s₁.accepted (.put [98] [2])).toList) ++
          (s₂.accepted (.put [99] [3])).toList) ++ (s₃.accepted (.put [100] [4])).toList).rdrop
          (d.lost (Wal.replayed s₃.log.dir ++ (s₃.accepted (.put [100] [4])).toList)) =
            [⟨false, [97], [1], 1⟩, ⟨false, [98], [2], 2⟩] ∧
        (ByteEngine.open everyOther d).isOk = true))) = some true := by
    decide +kernel
  obtain ⟨s₀, hopen₀, hstage⟩ := Option.map_eq_some_iff.mp hstage
  obtain ⟨hroom, hrest, hok⟩ := of_decide_eq_true hstage
  simp only [List.all_cons, List.all_nil, Bool.and_eq_true, decide_eq_true_eq, and_true] at hroom
  obtain ⟨hroom₀, hroom₁, hroom₂, hroom₃⟩ := hroom
  have hopen : ByteEngine.open everyOther {} = .ok s₀ := by
    rcases hres : ByteEngine.open everyOther {} with x | s <;> rw [hres] at hopen₀
    · cases hopen₀
    · obtain rfl := Option.some.inj hopen₀
      rfl
  rcases hagain : ByteEngine.open everyOther (ByteDisk.torn 70 ((((s₀.perform
      (.put [97] [1])).perform (.put [98] [2])).perform (.put [99] [3])).write (.record 5) .never
        false [100] [4]).1.disk) with x | s
  · rw [hagain] at hok
    cases hok
  have hput : ∀ {s : ByteEngine} (k v : Bytes), s.Fits (.put k v) →
      kMinPayload + k.length + v.length ≤ kMaxPayload → s.Orderly (.put k v) :=
    fun _ _ hroom hfit => ⟨hfit, hroom⟩
  have hrun : ByteHost.Crashing (fun _ => True) ByteEngine.Orderly (.shut {}, [])
      (.up s, [⟨false, [97], [1], 1⟩, ⟨false, [98], [2], 2⟩]) := by
    refine .tail (.tail (.tail (.tail (.tail (.single (.open trivial hopen))
      (.call (hput [97] [1] hroom₀ (by decide)))) (.call (hput [98] [2] hroom₁ (by decide))))
      (.call (hput [99] [3] hroom₂ (by decide)))) ?_) (.open trivial hagain)
    rw [← hrest]
    exact .crash (.within (hput [100] [4] hroom₃ (by decide)) (.put (.record 5) .never))
      (ByteDisk.left_torn 70 _)
  have hreads := (byteReads_of_crashing hrun).1
  exact ⟨s, hrun, hreads [98] (by decide), hreads [99] (by decide)⟩

end LsmKv
