import LsmKv.SstContained

/-!
# The search inside a block

Steps 4 and 5 of `get` on a block of any content. The forward scan tests every entry against
the end of the entries; the binary search follows restart offsets and key lengths untested, so
it stays inside the block exactly when those it looks at do.
-/

namespace LsmKv
namespace Sst
namespace TableReader

/-! ## Runs of the two loops -/

/-- The forward scan with no bound on its turns: from `pos` it ends in the result. -/
inductive Scans (base : ℕ) (block : Bytes) (entries_end : ℕ) (key : Bytes) :
    ℕ → Except Fault (Option TableHit) → Prop where
  | past {pos} (h : ¬pos < entries_end) : Scans base block entries_end key pos (.ok none)
  | fault {pos e} (h : pos < entries_end) (read : readEntry base block entries_end pos = .error e) :
      Scans base block entries_end key pos (.error e)
  | hit {pos e next} (h : pos < entries_end)
      (read : readEntry base block entries_end pos = .ok (e, next)) (found : e.1 = key) :
      Scans base block entries_end key pos (.ok (some e.2))
  | passed {pos e next} (h : pos < entries_end)
      (read : readEntry base block entries_end pos = .ok (e, next)) (above : key < e.1) :
      Scans base block entries_end key pos (.ok none)
  | next {pos e next r} (h : pos < entries_end)
      (read : readEntry base block entries_end pos = .ok (e, next)) (below : e.1 < key)
      (rest : Scans base block entries_end key next r) : Scans base block entries_end key pos r

/-- Reading the trailer, bisecting and scanning, each loop to its own end. -/
inductive Searches (base : ℕ) (block key : Bytes) : Except Fault (Option TableHit) → Prop where
  | trailer {restart_count} (read : readLe block (block.length - 8) 4 = some restart_count)
      (invalid : restart_count = 0 ∨ block.length < 8 + 4 * restart_count) :
      Searches base block key (.error (corrupt base "restart trailer invalid"))
  | fault {restart_count e} (read : readLe block (block.length - 8) 4 = some restart_count)
      (valid : ¬(restart_count = 0 ∨ block.length < 8 + 4 * restart_count))
      (narrowing : Bisects (restartNotAbove block (block.length - 8 - 4 * restart_count) key) 0
        restart_count (.error e)) : Searches base block key (.error e)
  | scan {restart_count lo pos r} (read : readLe block (block.length - 8) 4 = some restart_count)
      (valid : ¬(restart_count = 0 ∨ block.length < 8 + 4 * restart_count))
      (narrowing : Bisects (restartNotAbove block (block.length - 8 - 4 * restart_count) key) 0
        restart_count (.ok lo))
      (start : restartAt block (block.length - 8 - 4 * restart_count) lo = .ok pos)
      (scanning : Scans base block (block.length - 8 - 4 * restart_count) key pos r) :
      Searches base block key r

/-- An entry that was read lies before the end and is not empty. -/
theorem readEntry_next {base : ℕ} {block : Bytes} {entries_end p next : ℕ} {e : Entry}
    (h : readEntry base block entries_end p = .ok (e, next)) :
    p + kEntryHeader ≤ next ∧ next ≤ entries_end := by
  obtain ⟨-, h⟩ := ite_error_eq_ok h
  obtain ⟨klen, -, h⟩ := bind_eq_ok h
  obtain ⟨vlen, -, h⟩ := bind_eq_ok h
  obtain ⟨seqno, -, h⟩ := bind_eq_ok h
  obtain ⟨flags, -, h⟩ := bind_eq_ok h
  obtain ⟨hend, h⟩ := ite_error_eq_ok h
  obtain ⟨key, -, h⟩ := bind_eq_ok h
  obtain ⟨value, -, h⟩ := bind_eq_ok h
  obtain rfl := (Prod.mk.inj (Except.ok.inj h)).2
  omega

/-- A turn for every byte is enough, since every entry is at least its header. -/
theorem scans_findEntry (base : ℕ) (block : Bytes) (entries_end : ℕ) (key : Bytes)
    {fuel pos : ℕ} (h : entries_end - pos ≤ fuel) :
    Scans base block entries_end key pos (findEntry base block entries_end key fuel pos) := by
  induction fuel generalizing pos with
  | zero => exact .past (by omega)
  | succ fuel ih =>
    rw [findEntry]
    split
    · rename_i hpos
      rcases hread : readEntry base block entries_end pos with err | ⟨e, next⟩
      · exact .fault hpos hread
      · have hnext := (readEntry_next hread).1
        dsimp only
        split
        · rename_i hfound
          exact .hit hpos hread hfound
        split
        · rename_i habove
          exact .passed hpos hread habove
        · rename_i hne habove
          have hbelow : e.1 < key := lt_of_le_of_ne (not_lt.mp habove) hne
          rw [kEntryHeader] at hnext
          exact .next hpos hread hbelow (ih (by omega))
    · rename_i hpos
      exact .past hpos

theorem Scans.contained {base : ℕ} {block key : Bytes} {entries_end pos : ℕ}
    {r : Except Fault (Option TableHit)} (h : Scans base block entries_end key pos r)
    (hend : entries_end ≤ block.length) : Contained r := by
  induction h with
  | past _ => exact errorsIn_ok _
  | fault _ read => exact errorsIn_error (contained_readEntry hend _ read)
  | hit _ _ _ => exact errorsIn_ok _
  | passed _ _ _ => exact errorsIn_ok _
  | next _ _ _ _ ih => exact ih

/-! ## Restart points -/

/-- The key restart point `i` leads to, when it stands in the block. -/
def restartKey (block : Bytes) (restarts_off i : ℕ) : Option Bytes := do
  let off ← readLe block (restarts_off + 4 * i) 4
  let klen ← readLe block off 4
  readAt block (off + kEntryHeader) klen

theorem restartNotAbove_eq (block : Bytes) (restarts_off : ℕ) (key : Bytes) (i : ℕ) :
    restartNotAbove block restarts_off key i =
      match restartKey block restarts_off i with
      | none => .error .outside
      | some k => .ok (decide (k ≤ key)) := by
  unfold restartNotAbove restartKey restartAt keyAt
  rcases readLe block (restarts_off + 4 * i) 4 with _ | off
  · rfl
  simp only [demand_some, ok_bind, Option.bind_eq_bind, Option.bind_some]
  rcases readLe block off 4 with _ | klen
  · rfl
  simp only [demand_some, ok_bind, Option.bind_some]
  rcases readAt block (off + kEntryHeader) klen with _ | k <;> rfl

/-- Halving `[lo, hi)` towards `key` meets only restart points that lead to a key, and ends
at `r`. -/
inductive Halves (key_at : ℕ → Option Bytes) (key : Bytes) : ℕ → ℕ → ℕ → Prop where
  | narrow {lo hi} (done : ¬1 < hi - lo) : Halves key_at key lo hi lo
  | up {lo hi r k} (wide : 1 < hi - lo) (inside : key_at (lo + (hi - lo) / 2) = some k)
      (notAbove : k ≤ key) (rest : Halves key_at key (lo + (hi - lo) / 2) hi r) :
      Halves key_at key lo hi r
  | down {lo hi r k} (wide : 1 < hi - lo) (inside : key_at (lo + (hi - lo) / 2) = some k)
      (above : key < k) (rest : Halves key_at key lo (lo + (hi - lo) / 2) r) :
      Halves key_at key lo hi r

theorem Halves.bisects {block key : Bytes} {restarts_off lo hi r : ℕ}
    (h : Halves (restartKey block restarts_off) key lo hi r) :
    Bisects (restartNotAbove block restarts_off key) lo hi (.ok r) := by
  induction h with
  | narrow done => exact .narrow done
  | up wide inside notAbove rest ih =>
    refine .up wide ?_ ih
    rw [restartNotAbove_eq, inside]
    exact congrArg _ (decide_eq_true notAbove)
  | down wide inside above rest ih =>
    refine .down wide ?_ ih
    rw [restartNotAbove_eq, inside]
    exact congrArg _ (decide_eq_false (not_le.mpr above))

/-- A test that was passed read a key. -/
theorem exists_restartKey {block key : Bytes} {restarts_off i : ℕ} {b : Bool}
    (h : restartNotAbove block restarts_off key i = .ok b) :
    ∃ k, restartKey block restarts_off i = some k ∧ decide (k ≤ key) = b := by
  rw [restartNotAbove_eq] at h
  rcases hkey : restartKey block restarts_off i with _ | k
  · rw [hkey] at h
    cases h
  · rw [hkey] at h
    exact ⟨k, rfl, Except.ok.inj h⟩

theorem halves_of_bisects {block key : Bytes} {restarts_off lo hi r : ℕ}
    (h : Bisects (restartNotAbove block restarts_off key) lo hi (.ok r)) :
    Halves (restartKey block restarts_off) key lo hi r := by
  generalize hr : (Except.ok r : Except Fault ℕ) = res at h
  induction h with
  | narrow done =>
    obtain rfl := Except.ok.inj hr
    exact .narrow done
  | fault wide htest => cases hr
  | up wide htest rest ih =>
    obtain ⟨k, inside, hle⟩ := exists_restartKey htest
    exact .up wide inside (of_decide_eq_true hle) (ih hr)
  | down wide htest rest ih =>
    obtain ⟨k, inside, hle⟩ := exists_restartKey htest
    exact .down wide inside (not_le.mp (of_decide_eq_false hle)) (ih hr)

/-! ## The whole search -/

/-- The search ends, and in a hit, a miss or `CorruptionDetected`, every read being inside. -/
structure StaysInside (base : ℕ) (block key : Bytes) : Prop where
  ends : Searches base block key (searchBlock base block key)
  contained : Contained (searchBlock base block key)

/-- With a valid trailer, every restart point that halving towards `key` looks at leads to a
key inside the block. -/
def RestartsInside (block key : Bytes) : Prop :=
  ∀ restart_count, readLe block (block.length - 8) 4 = some restart_count →
    ¬(restart_count = 0 ∨ block.length < 8 + 4 * restart_count) →
    ∃ r, Halves (restartKey block (block.length - 8 - 4 * restart_count)) key 0 restart_count r

/-- Behind a valid trailer the search bisects and scans. -/
theorem searchBlock_of_trailer (base : ℕ) {block : Bytes} (key : Bytes) {restart_count : ℕ}
    (hread : readLe block (block.length - 8) 4 = some restart_count)
    (hvalid : ¬(restart_count = 0 ∨ block.length < 8 + 4 * restart_count)) :
    searchBlock base block key =
      bisect (restartNotAbove block (block.length - 8 - 4 * restart_count) key) restart_count 0
        restart_count >>= fun lo => restartAt block (block.length - 8 - 4 * restart_count) lo >>=
          findEntry base block (block.length - 8 - 4 * restart_count) key block.length := by
  rw [searchBlock, hread, demand_some, ok_bind, if_neg hvalid]

theorem searches_searchBlock (base : ℕ) {block : Bytes} (key : Bytes) (h : 8 ≤ block.length) :
    Searches base block key (searchBlock base block key) := by
  have hread : readLe block (block.length - 8) 4 = some _ := readLe_of_le (by omega)
  generalize leNat ((block.drop (block.length - 8)).take 4) = restart_count at hread
  by_cases hinvalid : restart_count = 0 ∨ block.length < 8 + 4 * restart_count
  · rw [searchBlock, hread, demand_some, ok_bind, if_pos hinvalid]
    exact .trailer hread hinvalid
  rw [searchBlock_of_trailer base key hread hinvalid]
  have hbisects := bisects_bisect
    (restartNotAbove block (block.length - 8 - 4 * restart_count) key)
    (show restart_count - 0 ≤ restart_count by omega)
  rcases hbisect : bisect (restartNotAbove block (block.length - 8 - 4 * restart_count) key)
    restart_count 0 restart_count with e | lo
  · rw [hbisect] at hbisects
    exact .fault hread hinvalid hbisects
  · rw [hbisect] at hbisects
    have hlo := (hbisects.range (by omega)).2
    have hstart : restartAt block (block.length - 8 - 4 * restart_count) lo =
        .ok (leNat ((block.drop (block.length - 8 - 4 * restart_count + 4 * lo)).take 4)) := by
      rw [restartAt, readLe_of_le (by omega), demand_some]
    rw [ok_bind, hstart, ok_bind]
    exact .scan hread hinvalid hbisects hstart (scans_findEntry base block _ key (by omega))

theorem RestartsInside.contained {base : ℕ} {block key : Bytes} (h : RestartsInside block key)
    {r : Except Fault (Option TableHit)} (hr : Searches base block key r) : Contained r := by
  rcases hr with ⟨read, invalid⟩ | ⟨read, valid, narrowing⟩ | ⟨read, valid, -, -, scanning⟩
  · exact errorsIn_error rfl
  · obtain ⟨r, hhalves⟩ := h _ read valid
    cases hhalves.bisects.unique narrowing
  · exact scanning.contained (by omega)

/-- The only fault of the binary search is a read outside. -/
theorem bisects_error {block key : Bytes} {restarts_off lo hi : ℕ} {e : Fault}
    (h : Bisects (restartNotAbove block restarts_off key) lo hi (.error e)) : e = .outside := by
  generalize hr : (Except.error e : Except Fault ℕ) = res at h
  induction h with
  | narrow done => cases hr
  | @fault lo hi _ wide htest =>
    obtain rfl := Except.error.inj hr
    rw [restartNotAbove_eq] at htest
    rcases hkey : restartKey block restarts_off (lo + (hi - lo) / 2) with _ | k
    · rw [hkey] at htest
      exact (Except.error.inj htest).symm
    · rw [hkey] at htest
      cases htest
  | up wide htest rest ih => exact ih hr
  | down wide htest rest ih => exact ih hr

theorem restartsInside_of_contained {base : ℕ} {block key : Bytes}
    (hcontained : Contained (searchBlock base block key)) : RestartsInside block key := by
  intro restart_count hread hvalid
  have hbisects := bisects_bisect
    (restartNotAbove block (block.length - 8 - 4 * restart_count) key)
    (show restart_count - 0 ≤ restart_count by omega)
  rcases hbisect : bisect (restartNotAbove block (block.length - 8 - 4 * restart_count) key)
    restart_count 0 restart_count with e | lo
  · rw [hbisect] at hbisects
    obtain rfl := bisects_error hbisects
    rw [searchBlock_of_trailer base key hread hvalid, hbisect] at hcontained
    exact absurd hcontained not_contained_outside
  · rw [hbisect] at hbisects
    exact ⟨lo, halves_of_bisects hbisects⟩

/-! ## Searches that succeed -/

/-- The rows from `pos` on are whole up to the end or to one that is not below `key`. -/
inductive Lands (base : ℕ) (block : Bytes) (entries_end : ℕ) (key : Bytes) : ℕ → Prop where
  | past {pos} (h : ¬pos < entries_end) : Lands base block entries_end key pos
  | stop {pos e next} (h : pos < entries_end)
      (read : readEntry base block entries_end pos = .ok (e, next)) (notBelow : ¬e.1 < key) :
      Lands base block entries_end key pos
  | next {pos e next} (h : pos < entries_end)
      (read : readEntry base block entries_end pos = .ok (e, next)) (below : e.1 < key)
      (rest : Lands base block entries_end key next) : Lands base block entries_end key pos

theorem Scans.lands {base : ℕ} {block key : Bytes} {entries_end pos : ℕ} {hit : Option TableHit}
    (h : Scans base block entries_end key pos (.ok hit)) :
    Lands base block entries_end key pos := by
  generalize hr : (Except.ok hit : Except Fault (Option TableHit)) = r at h
  induction h with
  | past hpos => exact .past hpos
  | fault hpos read => cases hr
  | hit hpos read found => exact .stop hpos read (not_lt.mpr found.ge)
  | passed hpos read above => exact .stop hpos read above.not_gt
  | next hpos read below rest ih => exact .next hpos read below (ih hr)

theorem Lands.findEntry {base : ℕ} {block key : Bytes} {entries_end pos : ℕ}
    (h : Lands base block entries_end key pos) (fuel : ℕ) :
    ∃ hit, TableReader.findEntry base block entries_end key fuel pos = .ok hit := by
  induction h generalizing fuel with
  | past hpos =>
    cases fuel with
    | zero => exact ⟨none, rfl⟩
    | succ fuel => exact ⟨none, by rw [TableReader.findEntry, if_neg hpos]⟩
  | @stop pos e next hpos read notBelow =>
    cases fuel with
    | zero => exact ⟨none, rfl⟩
    | succ fuel =>
      rw [TableReader.findEntry, if_pos hpos, read]
      dsimp only
      split
      · exact ⟨some e.2, rfl⟩
      · rename_i hne
        rw [if_pos (lt_of_le_of_ne (not_lt.mp notBelow) (Ne.symm hne))]
        exact ⟨none, rfl⟩
  | @next pos e next hpos read below rest ih =>
    cases fuel with
    | zero => exact ⟨none, rfl⟩
    | succ fuel =>
      rw [TableReader.findEntry, if_pos hpos, read]
      dsimp only
      rw [if_neg below.ne, if_neg below.not_gt]
      exact ih fuel

/-- The trailer is valid, the binary search stays inside, and the rows from the restart point
it ends at are whole as far as they are needed. -/
def Searchable (base : ℕ) (block key : Bytes) : Prop :=
  ∃ restart_count r pos, readLe block (block.length - 8) 4 = some restart_count ∧
    ¬(restart_count = 0 ∨ block.length < 8 + 4 * restart_count) ∧
    Halves (restartKey block (block.length - 8 - 4 * restart_count)) key 0 restart_count r ∧
    readLe block (block.length - 8 - 4 * restart_count + 4 * r) 4 = some pos ∧
    Lands base block (block.length - 8 - 4 * restart_count) key pos

theorem searchable_iff (base : ℕ) {block : Bytes} (key : Bytes) (h : 8 ≤ block.length) :
    (∃ hit, searchBlock base block key = .ok hit) ↔ Searchable base block key := by
  constructor
  · rintro ⟨hit, hhit⟩
    have hends := searches_searchBlock base key h
    rw [hhit] at hends
    rcases hends with _ | _ | ⟨read, valid, narrowing, start, scanning⟩
    exact ⟨_, _, _, read, valid, halves_of_bisects narrowing, demand_eq_ok start,
      scanning.lands⟩
  · rintro ⟨restart_count, r, pos, hread, hvalid, hhalves, hstart, hlands⟩
    have hbisect := (bisects_bisect
      (restartNotAbove block (block.length - 8 - 4 * restart_count) key)
      (show restart_count - 0 ≤ restart_count by omega)).unique hhalves.bisects
    rw [searchBlock_of_trailer base key hread hvalid, hbisect, ok_bind, restartAt, hstart,
      demand_some, ok_bind]
    exact hlands.findEntry block.length

end TableReader

open TableReader

/-- The search of a block for a key stays inside the block if and only if the restart points
its binary search looks at lead inside. -/
theorem staysInside_iff (base : ℕ) (block key : Bytes) (h : 12 ≤ block.length) :
    StaysInside base block key ↔ RestartsInside block key := by
  have hends := searches_searchBlock base key (show 8 ≤ block.length by omega)
  constructor
  · intro hstays
    exact restartsInside_of_contained hstays.contained
  · intro hinside
    exact ⟨hends, hinside.contained hends⟩

/-- A block of three rows with a restart point at each. -/
def restartedBlock : Bytes :=
  blockBytes ([0x61, 0x63, 0x65].flatMap (fun k => encodeEntry ([k], ⟨[1], 7, false⟩))) [0, 19, 38]

/-- Halving goes up at the second restart point and down at the third. -/
theorem staysInside_restartedBlock : StaysInside 0 restartedBlock [0x64] := by
  refine (staysInside_iff 0 _ [0x64] (by decide)).mpr (fun restart_count hread _ => ?_)
  obtain rfl : 3 = restart_count := Option.some.inj hread
  have hsecond : restartKey restartedBlock (restartedBlock.length - 8 - 4 * 3) 1 =
      some [0x63] := rfl
  have hthird : restartKey restartedBlock (restartedBlock.length - 8 - 4 * 3) 2 =
      some [0x65] := rfl
  exact ⟨1, .up (by decide) hsecond (by decide)
    (.down (by decide) hthird (by decide) (.narrow (by decide)))⟩

/-- Two restart points and no row; the second offset is the largest there is. -/
def misledBlock : Bytes := blockBytes [] [0, 2 ^ 32 - 1]

theorem not_staysInside_misledBlock :
    ¬∀ block, 12 ≤ block.length → crcMatches block block.length = .ok true →
      ∀ base key, StaysInside base block key := by
  intro h
  have hstays := h misledBlock (by decide) (crcMatches_withCrc _) 0 []
  exact not_contained_outside hstays.contained

end Sst
end LsmKv
