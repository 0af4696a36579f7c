import LsmKv.Crc
import LsmKv.VerifiedReads

/-!
# One changed byte

A file that verifies, with one byte changed in front of its footer. Every reader looks at a
section or block only after its checksum, so the change is noticed or not looked at.
-/

namespace LsmKv
namespace Sst

open TableReader ReadContext

/-! ## Slices of a changed file -/

section
variable {file : Bytes} {i : ℕ} {v : UInt8}

theorem slice_set_outside {off n : ℕ} (h : ¬(off ≤ i ∧ i < off + n)) :
    ((file.set i v).drop off).take n = (file.drop off).take n := by
  rw [List.drop_set]
  split
  · rfl
  · rw [List.take_set, List.set_eq_of_length_le]
    rw [List.length_take]
    omega

theorem slice_set_inside {off n : ℕ} (h : off ≤ i) :
    ((file.set i v).drop off).take n = ((file.drop off).take n).set (i - off) v := by
  rw [List.drop_set, if_neg (by omega), List.take_set]

theorem readRange_set_outside {off n : ℕ} (short : Fault) (h : ¬(off ≤ i ∧ i < off + n)) :
    readRange (file.set i v) off n short = readRange file off n short := by
  rw [readRange, readRange, readFile, readFile, readAt, readAt, List.length_set,
    slice_set_outside h]

theorem readRange_set_inside {off n : ℕ} {s : Bytes} {short : Fault} (hoff : off ≤ i)
    (hi : i < off + n) (hread : readRange file off n short = .ok s) :
    readRange (file.set i v) off n short = .ok (s.set (i - off) v) := by
  rw [readRange] at hread ⊢
  split at hread
  · cases hread
  rename_i hn
  have hfile := demand_eq_ok hread
  rw [readFile] at hfile
  split at hfile
  · cases hfile
  rename_i hseek
  rw [if_neg (by omega)] at hfile
  obtain ⟨hle, rfl, -⟩ := readAt_eq_some hfile
  rw [if_neg hn, readFile, if_neg hseek, if_neg (by omega), readAt_of_le (by
    rw [List.length_set]
    exact hle), slice_set_inside hoff, demand_some]

theorem leNat_ne_of_ne {s t : Bytes} (hlen : s.length = t.length) (h : s ≠ t) :
    leNat s ≠ leNat t := by
  intro he
  have hs := leBytes_leNat s
  rw [he, hlen, leBytes_leNat] at hs
  exact h hs.symm

theorem set_ne_self {s : Bytes} {j : ℕ} (hj : j < s.length) (hv : s[j]? ≠ some v) :
    s.set j v ≠ s := by
  intro he
  refine hv ?_
  rw [← he, List.getElem?_set_self (by omega)]

/-- A block whose checksum matches stops matching when a byte is changed, in the body or in
the checksum. -/
theorem crcMatches_set {block : Bytes} {n j : ℕ} (hlen : block.length = n) (hn : 4 ≤ n)
    (hcrc : crcMatches block n = .ok true) (hj : j < n) (hv : block[j]? ≠ some v) :
    crcMatches (block.set j v) n = .ok false := by
  rw [crcMatches_eq hlen hn] at hcrc
  have hsame := beq_iff_eq.mp (Except.ok.inj hcrc)
  rw [crcMatches_eq (by rw [List.length_set, hlen]) hn]
  refine congrArg _ (beq_eq_false_iff_ne.mpr ?_)
  by_cases hbody : j < n - 4
  · -- the body differs in one byte, the stored checksum does not
    have hget : block[j]? = some block[j] := List.getElem?_eq_getElem (by omega)
    have hne : v ≠ block[j] := fun he => hv (by rw [hget, he])
    have hstored : ((block.set j v).drop (n - 4)).take 4 = (block.drop (n - 4)).take 4 :=
      slice_set_outside (by omega)
    have hsplit : block.take (n - 4) =
        (block.take j) ++ block[j] :: (block.take (n - 4)).drop (j + 1) := by
      have hcut := List.take_append_drop j (block.take (n - 4))
      rw [List.take_take, Nat.min_eq_left (by omega), List.drop_eq_getElem_cons (by
        rw [List.length_take]
        omega), List.getElem_take] at hcut
      exact hcut.symm
    have hset : (block.set j v).take (n - 4) =
        (block.take j) ++ v :: (block.take (n - 4)).drop (j + 1) := by
      rw [List.take_set, List.set_eq_take_append_cons_drop, if_pos (by
        rw [List.length_take]
        omega), List.take_take, Nat.min_eq_left (by omega)]
    rw [hstored, ← hsame, hset]
    conv => rhs; rw [hsplit]
    exact crc32_ne_of_ne hne _ _
  · have hbytes : (block.set j v).take (n - 4) = block.take (n - 4) := by
      rw [List.take_set, List.set_eq_of_length_le]
      rw [List.length_take]
      omega
    have hstored : ((block.set j v).drop (n - 4)).take 4 =
        ((block.drop (n - 4)).take 4).set (j - (n - 4)) v := slice_set_inside (by omega)
    rw [hbytes, hsame, hstored]
    refine (leNat_ne_of_ne (List.length_set ..) (set_ne_self ?_ ?_)).symm
    · rw [List.length_take, List.length_drop]
      omega
    · rw [List.getElem?_take_of_lt (by omega), List.getElem?_drop,
        show n - 4 + (j - (n - 4)) = j by omega]
      exact hv

/-- The same for a block as it stands in the file. -/
theorem damaged_block {off n : ℕ} {block : Bytes} {short : Fault}
    (hread : readRange file off n short = .ok block) (hn : 4 ≤ n)
    (hcrc : crcMatches block n = .ok true) (hoff : off ≤ i) (hi : i < off + n)
    (hv : file[i]? ≠ some v) : ∃ damaged, readRange (file.set i v) off n short = .ok damaged ∧
      crcMatches damaged n = .ok false := by
  obtain ⟨hlen, hzero | ⟨-, rfl⟩⟩ := readRange_eq_ok hread
  · omega
  refine ⟨_, readRange_set_inside hoff hi hread, crcMatches_set hlen hn hcrc (by omega) ?_⟩
  rw [List.getElem?_take_of_lt (by omega), List.getElem?_drop, Nat.add_sub_cancel' hoff]
  exact hv

end

/-! ## Verification and scan -/

section
variable {file : Bytes} {index : List IndexEntry} {i : ℕ} {v : UInt8}

theorem footerOf_set (hi : i < file.length - kFooterSize) :
    footerOf (file.set i v) = footerOf file := by
  rw [footerOf, footerOf, List.length_set, List.drop_set_of_lt hi]

/-- The byte lies in the index block, the filter block or a data block. -/
def InBlock (file : Bytes) (index : List IndexEntry) (i : ℕ) : Prop :=
  ((footerOf file).indexOff ≤ i ∧ i < (footerOf file).indexOff + (footerOf file).indexSize) ∨
    ((footerOf file).filterOff ≤ i ∧
      i < (footerOf file).filterOff + (footerOf file).filterSize) ∨
    ∃ x ∈ index, x.offset ≤ i ∧ i < x.offset + x.size

theorem Verified.four_le (h : Verified file index) :
    4 ≤ (footerOf file).indexSize ∧ 4 ≤ (footerOf file).filterSize := by
  obtain ⟨-, -, hindex, hfilter⟩ := outOfRange_eq_false h.inRange
  exact ⟨hindex, hfilter⟩

theorem Verified.damaged_index (h : Verified file index) (hne : file[i]? ≠ some v)
    (hin : (footerOf file).indexOff ≤ i ∧
      i < (footerOf file).indexOff + (footerOf file).indexSize) (short : Fault) :
    ∃ damaged, readRange (file.set i v) (footerOf file).indexOff (footerOf file).indexSize short =
      .ok damaged ∧ crcMatches damaged (footerOf file).indexSize = .ok false :=
  damaged_block (h.readIndex short) h.four_le.1 h.crcIndex hin.1 hin.2 hne

theorem Verified.damaged_filter (h : Verified file index) (hne : file[i]? ≠ some v)
    (hin : (footerOf file).filterOff ≤ i ∧
      i < (footerOf file).filterOff + (footerOf file).filterSize) (short : Fault) :
    ∃ damaged, readRange (file.set i v) (footerOf file).filterOff (footerOf file).filterSize
      short = .ok damaged ∧ crcMatches damaged (footerOf file).filterSize = .ok false :=
  damaged_block (h.readFilter short) h.four_le.2 h.crcFilter hin.1 hin.2 hne

theorem Verified.damaged_data (h : Verified file index) (hne : file[i]? ≠ some v)
    {x : IndexEntry} (hx : x ∈ index) (hin : x.offset ≤ i ∧ i < x.offset + x.size)
    (short : Fault) : ∃ damaged, readRange (file.set i v) x.offset x.size short = .ok damaged ∧
      crcMatches damaged x.size = .ok false :=
  damaged_block ((h.blocks x hx).2.1 short) (h.blocks x hx).1 (h.blocks x hx).2.2 hin.1 hin.2 hne

/-- Outside the index block, the change leaves the index as it was. -/
theorem Indexes.set (h : Indexes file index) (hi : i < file.length - kFooterSize)
    (hout : ¬((footerOf file).indexOff ≤ i ∧
      i < (footerOf file).indexOff + (footerOf file).indexSize)) :
    indexOf (file.set i v) = indexOf file ∧ Indexes (file.set i v) index := by
  have hsame : indexOf (file.set i v) = indexOf file := by
    rw [indexOf, footerOf_set hi, slice_set_outside hout, indexOf]
  refine ⟨hsame, ?_⟩
  rw [Indexes, hsame, footerOf_set hi]
  exact h

theorem Verified.not_verify_set (h : Verified file index) (hi : i < file.length - kFooterSize)
    (hne : file[i]? ≠ some v) (hin : InBlock file index i) :
    verifySstable (some (file.set i v)) ≠ .ok "OK" := by
  intro hok
  obtain ⟨index', h'⟩ := verified_of_verify hok
  have hfooter := footerOf_set (v := v) hi
  by_cases hindex : (footerOf file).indexOff ≤ i ∧
      i < (footerOf file).indexOff + (footerOf file).indexSize
  · obtain ⟨damaged, hread, hcrc⟩ := h.damaged_index hne hindex .outside
    have hread' := h'.readIndex .outside
    have hcrc' := h'.crcIndex
    rw [hfooter] at hread' hcrc'
    rw [hread] at hread'
    rw [← Except.ok.inj hread', hcrc] at hcrc'
    cases hcrc'
  obtain ⟨-, hsame⟩ := h.indexes.set (v := v) hi hindex
  obtain rfl := hsame.unique h'.indexes
  rcases hin with hin | hin | ⟨x, hx, hin⟩
  · exact hindex hin
  · obtain ⟨damaged, hread, hcrc⟩ := h.damaged_filter hne hin .outside
    have hread' := h'.readFilter .outside
    have hcrc' := h'.crcFilter
    rw [hfooter] at hread' hcrc'
    rw [hread] at hread'
    rw [← Except.ok.inj hread', hcrc] at hcrc'
    cases hcrc'
  · obtain ⟨damaged, hread, hcrc⟩ := h.damaged_data hne hx hin .outside
    obtain ⟨-, hread', hcrc'⟩ := h'.blocks x hx
    have hboth := hread.symm.trans (hread' .outside)
    rw [← Except.ok.inj hboth, hcrc] at hcrc'
    cases hcrc'

/-- One block of the scan of a changed file: as before, or `CorruptionDetected`. -/
theorem Verified.scanVisit_set (h : Verified file index) (hne : file[i]? ≠ some v)
    {x : IndexEntry} (hx : x ∈ index) (entries : List Entry) :
    (¬(x.offset ≤ i ∧ i < x.offset + x.size) →
      scanVisit (file.set i v) entries x = scanVisit file entries x) ∧
    (x.offset ≤ i ∧ i < x.offset + x.size →
      ∃ e, scanVisit (file.set i v) entries x = .error e ∧ e.IsCorruption) := by
  constructor
  · intro hout
    rw [scanVisit, scanVisit, readRange_set_outside _ hout]
  · intro hin
    obtain ⟨damaged, hread, hcrc⟩ := h.damaged_data hne hx hin
      (corrupt x.offset "short read on data block")
    refine ⟨corrupt x.offset "data block checksum mismatch", ?_, rfl⟩
    rw [scanVisit, hread, ok_bind]
    by_cases hsmall : x.size < 12
    · simp only [if_pos hsmall]
      rfl
    · simp only [if_neg hsmall, hcrc]
      rfl

theorem exists_error {α : Type} {r : Except Fault α} (h : Contained r) (hno : ∀ a, r ≠ .ok a) :
    ∃ e, r = .error e ∧ e.IsCorruption := by
  cases r with
  | error e => exact ⟨e, rfl, h e rfl⟩
  | ok a => exact absurd rfl (hno a)

/-- The fold over the blocks stops at the changed one. -/
theorem Verified.foldlM_scan_set (h : Verified file index) (hshort : ∀ x ∈ index, x.Short)
    (hscan : ∃ rows, scanSstable (some file) = .ok rows) (hne : file[i]? ≠ some v)
    (hin : ∃ x ∈ index, x.offset ≤ i ∧ i < x.offset + x.size) (entries : List Entry) :
    ∃ e, index.foldlM (scanVisit (file.set i v)) entries = .error e ∧ e.IsCorruption := by
  have hgood := ((h.scan_iff_of_short hshort).mp hscan).2
  refine exists_error (errorsIn_foldlM (fun es x hx => ?_) entries) (fun es hes => ?_)
  · obtain ⟨hout, hdamaged⟩ := h.scanVisit_set hne hx es
    by_cases hx' : x.offset ≤ i ∧ i < x.offset + x.size
    · obtain ⟨e, he, hcorrupt⟩ := hdamaged hx'
      rw [he]
      exact errorsIn_error hcorrupt
    · obtain ⟨es', hes'⟩ := (h.scanVisit_iff hx es).mpr (hgood x hx)
      rw [hout hx', hes']
      exact errorsIn_ok _
  · have hall := (foldlM_eq_ok_iff (fun x => ¬(x.offset ≤ i ∧ i < x.offset + x.size))
      (fun es x hx => ?_) entries).mp ⟨es, hes⟩
    · obtain ⟨x, hx, hx'⟩ := hin
      exact hall x hx hx'
    · obtain ⟨hout, hdamaged⟩ := h.scanVisit_set hne hx es
      constructor
      · rintro ⟨es', hes'⟩ hx'
        obtain ⟨e, he, -⟩ := hdamaged hx'
        rw [he] at hes'
        cases hes'
      · intro hx'
        rw [hout hx']
        exact (h.scanVisit_iff hx es).mpr (hgood x hx)

theorem Verified.inspectFooter_set (h : Verified file index)
    (hfilter : 24 ≤ (footerOf file).filterSize) (hi : i < file.length - kFooterSize) :
    Sst.inspectFooter (file.set i v) = .ok (footerOf file) := by
  have hsame := h.inspectFooter
  rw [if_neg (by omega), Sst.inspectFooter] at hsame
  rw [Sst.inspectFooter, List.length_set, inspectRead, readRange_set_outside _ (by omega)]
  exact hsame

theorem Verified.scan_set (h : Verified file index) (hshort : ∀ x ∈ index, x.Short)
    (hscan : ∃ rows, scanSstable (some file) = .ok rows) (hi : i < file.length - kFooterSize)
    (hne : file[i]? ≠ some v) (hin : InBlock file index i) :
    ∃ e, scanSstable (some (file.set i v)) = .error e ∧ e.IsCorruption := by
  have hfilterSize := (h.scan_iff.mp hscan).1
  have hfooter := h.inspectFooter_set (v := v) hfilterSize hi
  by_cases hindex : (footerOf file).indexOff ≤ i ∧
      i < (footerOf file).indexOff + (footerOf file).indexSize
  · obtain ⟨damaged, hread, hcrc⟩ := h.damaged_index hne hindex
      (inspectFail ("short read at offset " ++ toString (footerOf file).indexOff))
    refine ⟨inspectFail "index block checksum mismatch", ?_, rfl⟩
    rw [scanSstable, inspectSstable, hfooter, ok_bind, inspectIndex, inspectRead, hread, ok_bind,
      hcrc]
    rfl
  obtain ⟨info, hinspect, hoff, hsize⟩ := h.inspect hfilterSize (h.indexes.inspects hshort)
  obtain ⟨hsame, hindexes⟩ := h.indexes.set (v := v) hi hindex
  have hinspectIndex : inspectIndex (file.set i v) (footerOf file) =
      inspectIndex file (footerOf file) := by
    rw [inspectIndex, inspectIndex, inspectRead, inspectRead, readRange_set_outside _ hindex,
      List.length_set]
  by_cases hfilter : (footerOf file).filterOff ≤ i ∧
      i < (footerOf file).filterOff + (footerOf file).filterSize
  · obtain ⟨damaged, hread, hcrc⟩ := h.damaged_filter hne hfilter
      (inspectFail ("short read at offset " ++ toString (footerOf file).filterOff))
    have hok : ∃ info, inspectIndex file (footerOf file) = .ok info := by
      rw [inspectSstable, h.inspectFooter, if_neg (by omega), ok_bind] at hinspect
      obtain ⟨info', hinfo', -⟩ := bind_eq_ok hinspect
      exact ⟨info', hinfo'⟩
    obtain ⟨info', hinfo'⟩ := hok
    refine ⟨inspectFail "filter block checksum mismatch", ?_, rfl⟩
    rw [scanSstable, inspectSstable, hfooter, ok_bind, hinspectIndex, hinfo', ok_bind,
      inspectFilter, inspectRead, hread, ok_bind, hcrc]
    rfl
  have hinspect' : inspectSstable (some (file.set i v)) = .ok info := by
    have hfile := hinspect
    rw [inspectSstable, h.inspectFooter, if_neg (by omega), ok_bind] at hfile
    rw [inspectSstable, hfooter, ok_bind, hinspectIndex]
    rw [← hfile]
    refine congrArg _ (funext (fun info => ?_))
    rw [inspectFilter, inspectFilter, inspectRead, inspectRead, readRange_set_outside _ hfilter]
  have hdata : ∃ x ∈ index, x.offset ≤ i ∧ i < x.offset + x.size :=
    (hin.resolve_left hindex).resolve_left hfilter
  obtain ⟨e, he, hcorrupt⟩ := h.foldlM_scan_set hshort hscan hne hdata []
  refine ⟨e, ?_, hcorrupt⟩
  rw [scanSstable, hinspect', ok_bind]
  simp only [hoff, hsize]
  rw [readRange_set_outside _ hindex, h.readIndex, ok_bind, ← he]
  have hwalk := hindexes.scan hshort []
  rw [hsame, footerOf_set hi] at hwalk
  exact hwalk

/-! ## Lookups -/

/-- As before, or `CorruptionDetected`. -/
def SameOrCorrupt {α : Type} (before after : Except Fault α) : Prop :=
  after = before ∨ ∃ e, after = .error e ∧ e.IsCorruption

theorem Verified.fetchBlock_set (h : Verified file index) (hne : file[i]? ≠ some v)
    {x : IndexEntry} (hx : x ∈ index) {c : ReadContext}
    (hcache : ∀ n ∈ c.cache.lru, n.1.1 ≠ c.reader.info.id) :
    ReadContext.fetchBlock (file.set i v) x c = ReadContext.fetchBlock file x c ∨
      ∃ c' e, ReadContext.fetchBlock (file.set i v) x c = (c', .error e) ∧ e.IsCorruption := by
  by_cases hin : x.offset ≤ i ∧ i < x.offset + x.size
  · right
    obtain ⟨damaged, hread, hcrc⟩ := h.damaged_data hne hx hin (corrupt x.offset "short read")
    unfold ReadContext.fetchBlock
    rcases hfind : c.cache.find (c.reader.info.id, x.offset) with ⟨cache, _ | block⟩
    · dsimp only
      rw [TableReader.readRange, hread]
      by_cases hsmall : x.size < 12
      · simp only [if_pos hsmall]
        exact ⟨_, _, rfl, rfl⟩
      · simp only [if_neg hsmall, hcrc]
        exact ⟨_, _, rfl, rfl⟩
    · have hmem := find_some (congrArg Prod.snd hfind)
      exact absurd rfl (hcache _ hmem)
  · left
    unfold ReadContext.fetchBlock TableReader.readRange
    rw [readRange_set_outside _ hin]

theorem Verified.loadIndex_set (h : Verified file index) (hne : file[i]? ≠ some v)
    {r : TableReader} (hoff : r.indexOff = (footerOf file).indexOff)
    (hsize : r.indexSize = (footerOf file).indexSize) :
    r.loadIndex (file.set i v) = .ok index ∨
      ∃ e, r.loadIndex (file.set i v) = .error e ∧ e.IsCorruption := by
  by_cases hin : (footerOf file).indexOff ≤ i ∧
      i < (footerOf file).indexOff + (footerOf file).indexSize
  · right
    obtain ⟨damaged, hread, hcrc⟩ := h.damaged_index hne hin
      (corrupt (footerOf file).indexOff "short read")
    refine ⟨corrupt (footerOf file).indexOff "index block checksum mismatch", ?_, rfl⟩
    rw [TableReader.loadIndex, TableReader.readRange, hoff, hsize, hread, ok_bind, hcrc]
    rfl
  · left
    rw [← h.loadIndex hoff hsize, TableReader.loadIndex, TableReader.loadIndex,
      TableReader.readRange, TableReader.readRange, hoff, hsize, readRange_set_outside _ hin]

theorem Verified.searchIndex_set (h : Verified file index) (hne : file[i]? ≠ some v)
    {c : ReadContext} (key : Bytes) (hoff : c.reader.indexOff = (footerOf file).indexOff)
    (hsize : c.reader.indexSize = (footerOf file).indexSize) (hpin : c.reader.indexPinned = false)
    (hcache : ∀ n ∈ c.cache.lru, n.1.1 ≠ c.reader.info.id) :
    SameOrCorrupt (ReadContext.searchIndex file key c).2
      (ReadContext.searchIndex (file.set i v) key c).2 := by
  obtain ⟨r, hindex, hinfo⟩ := h.currentIndex hoff hsize hpin
  rcases h.loadIndex_set hne hoff hsize with hload | ⟨e, hload, hcorrupt⟩
  · have hindex' : ReadContext.currentIndex (file.set i v) c.reader = (r, .ok index) := by
      rw [← hindex, ReadContext.currentIndex, ReadContext.currentIndex, hload,
        h.loadIndex hoff hsize]
    rw [ReadContext.searchIndex, ReadContext.searchIndex, hindex, hindex']
    dsimp only
    rcases hx : lastNotAbove index key with _ | x
    · exact .inl rfl
    dsimp only
    rcases h.fetchBlock_set hne (mem_of_lastNotAbove hx) (c := { c with reader := r })
      (by rw [hinfo]; exact hcache) with hfetch | ⟨c', e, hfetch, hcorrupt⟩
    · rw [hfetch]
      exact .inl rfl
    · rw [hfetch]
      exact .inr ⟨e, rfl, hcorrupt⟩
  · right
    refine ⟨e, ?_, hcorrupt⟩
    rw [ReadContext.searchIndex, ReadContext.currentIndex, hpin, hload]
    cases c.reader.cacheIndexBlocks <;> rfl

theorem Opened.loadBloom_set {c : ReadContext} (hc : Opened file c) (h : Verified file index)
    (hne : file[i]? ≠ some v) :
    c.reader.loadBloom (file.set i v) = c.reader.loadBloom file ∨
      ∃ r e, c.reader.loadBloom (file.set i v) = (r, .error e) ∧ e.IsCorruption := by
  by_cases hin : (footerOf file).filterOff ≤ i ∧
      i < (footerOf file).filterOff + (footerOf file).filterSize
  · right
    obtain ⟨damaged, hread, hcrc⟩ := h.damaged_filter hne hin
      (corrupt (footerOf file).filterOff "short read")
    refine ⟨c.reader, corrupt (footerOf file).filterOff "filter block checksum mismatch", ?_, rfl⟩
    rw [TableReader.loadBloom, readFilter, TableReader.readRange, hc.filterOff, hc.filterSize,
      hread, ok_bind, hcrc]
    rfl
  · left
    rw [TableReader.loadBloom, TableReader.loadBloom, readFilter, readFilter,
      TableReader.readRange, TableReader.readRange, hc.filterOff, hc.filterSize,
      readRange_set_outside _ hin]

theorem Opened.searchBloom_set {c : ReadContext} (hc : Opened file c) (h : Verified file index)
    (hfilter : 24 ≤ (footerOf file).filterSize) (hlayout : LayoutValid file)
    (hne : file[i]? ≠ some v) (key : Bytes) :
    SameOrCorrupt (ReadContext.searchBloom file key c).2
      (ReadContext.searchBloom (file.set i v) key c).2 := by
  obtain ⟨r, hload, -, -, -, hoff, hsize, hpin, hinfo⟩ := (hc.loadBloom h hfilter).2 hlayout
  rw [ReadContext.searchBloom, ReadContext.searchBloom, ReadContext.currentBloom,
    ReadContext.currentBloom, if_pos hc.noBloom, if_pos hc.noBloom]
  rcases hc.loadBloom_set h hne with hsame | ⟨r', e, hdamaged, hcorrupt⟩
  · rw [hsame, hload]
    dsimp only
    rcases r.bloomMayContain key with _ | _ | _
    · exact .inl rfl
    · exact .inl rfl
    · exact h.searchIndex_set hne key (hoff.trans hc.indexOff) (hsize.trans hc.indexSize)
        (hpin.trans hc.unpinned) (by rw [hinfo]; exact hc.cache)
  · rw [hdamaged]
    exact .inr ⟨e, rfl, hcorrupt⟩

/-- Opening the changed file for a key in range: the footer is still the same. -/
theorem Verified.exists_opened (h : Verified file index)
    (hfilter : 24 ≤ (footerOf file).filterSize) {info : TableMeta} {key : Bytes}
    (hrange : ¬(key < info.minKey ∨ info.maxKey < key)) (cache_index_blocks : Bool)
    {cache : BlockCache} (hcache : ∀ n ∈ cache.lru, n.1.1 ≠ info.id) {changed : Bytes}
    (hlen : changed.length = file.length) (hfooter : footerOf changed = footerOf file) :
    ∃ c, Opened file c ∧
      ReadContext.get key (freshReader changed info cache_index_blocks cache) =
        ReadContext.searchBloom changed key c := by
  have hpasses : Passes changed := by
    have hp := h.passes hfilter
    refine ⟨?_, ?_, ?_, ?_, ?_⟩
    · rw [hlen]
      exact hp.long
    · rw [hlen]
      exact hp.seekable
    · rw [hfooter]
      exact hp.magic
    · rw [hfooter]
      exact hp.version
    · rw [hfooter, hlen]
      exact hp.inRange
  rw [ReadContext.get, if_neg (by exact hrange), TableReader.ensureOpen]
  simp only [freshReader]
  rw [loadFooter_of_passes hpasses, hfooter]
  exact ⟨_, ⟨rfl, rfl, rfl, rfl, rfl, rfl, hcache⟩, rfl⟩

/-- The first lookup on the changed file. -/
theorem Verified.get_set (h : Verified file index) (hfilter : 24 ≤ (footerOf file).filterSize)
    (hlayout : LayoutValid file) (hi : i < file.length - kFooterSize) (hne : file[i]? ≠ some v)
    (info : TableMeta) (cache_index_blocks : Bool) {cache : BlockCache}
    (hcache : ∀ n ∈ cache.lru, n.1.1 ≠ info.id) (key : Bytes) :
    SameOrCorrupt (ReadContext.get key (freshReader file info cache_index_blocks cache)).2
      (ReadContext.get key (freshReader (file.set i v) info cache_index_blocks cache)).2 := by
  by_cases hrange : key < info.minKey ∨ info.maxKey < key
  · left
    rw [ReadContext.get, ReadContext.get, if_pos (by exact hrange), if_pos (by exact hrange)]
  obtain ⟨c, hc, hget⟩ := h.exists_opened hfilter hrange cache_index_blocks hcache rfl rfl
  obtain ⟨c', hc', hget'⟩ := h.exists_opened hfilter hrange cache_index_blocks hcache
    (List.length_set ..) (footerOf_set (v := v) hi)
  rw [hget, hget', (hc.searchBloom h hfilter key).2 hlayout,
    ← (hc'.searchBloom h hfilter key).2 hlayout]
  exact hc'.searchBloom_set h hfilter hlayout hne key

end

/-! ## Written tables -/

/-- The data blocks cover the bytes in front of the index. -/
theorem exists_placed (ri : ℕ) {groups : List (List Entry)} {off i : ℕ} (hoff : off ≤ i)
    (hi : i < off + dataLen ri groups) :
    ∃ p ∈ placed ri off groups, p.1 ≤ i ∧ i < p.1 + (groupBytes ri p.2).length := by
  induction groups generalizing off with
  | nil =>
    have hzero : dataLen ri [] = 0 := rfl
    omega
  | cons g gs ih =>
    rw [dataLen_cons] at hi
    by_cases hhead : i < off + (groupBytes ri g).length
    · exact ⟨(off, g), List.mem_cons_self, hoff, hhead⟩
    · obtain ⟨p, hp, hin⟩ := @ih (off + (groupBytes ri g).length) (by omega) (by omega)
      exact ⟨p, List.mem_cons_of_mem _ hp, hin⟩

section
variable {cfg : SstConfig} {file bits : Bytes} {groups : List (List Entry)} {num_keys : ℕ}

theorem Laid.footerOf (h : Laid cfg file groups num_keys bits) :
    Sst.footerOf file = tableFooter cfg groups num_keys bits := by
  have hread : readRange file _ _ .outside = .ok _ :=
    readRange_of_hasAt h.hasAt_footer (length_encode_footer _).symm h.size
  have hlen := h.size
  rw [readRange_footer .outside (not_lt.mp h.footer_le) (by omega)] at hread
  rw [Sst.footerOf, Except.ok.inj hread, h.decode_footer]

theorem Table.footerOf (h : Table cfg file groups num_keys bits) :
    Sst.footerOf file = tableFooter cfg groups num_keys bits := h.laid.footerOf

theorem Table.verified (h : Table cfg file groups num_keys bits) :
    Verified file (indexFrom cfg.restartInterval 0 groups) := by
  obtain ⟨index, hv⟩ := verified_of_verify h.verify
  have hloaded := hv.loadIndex (r := { withFooter (Sst.footerOf file) unopened with
    file := some file, footerLoaded := true }) rfl rfl
  have hready : Ready cfg file groups num_keys bits { withFooter (Sst.footerOf file) unopened with
      file := some file, footerLoaded := true } := by
    rw [h.footerOf]
    exact ⟨rfl, .inl rfl, fun _ => rfl, fun _ => rfl, fun _ => rfl, fun _ => rfl, .inl rfl, nofun⟩
  rw [hready.loadIndex h rfl] at hloaded
  rw [Except.ok.inj hloaded]
  exact hv

theorem Table.index_short (h : Table cfg file groups num_keys bits) :
    ∀ x ∈ indexFrom cfg.restartInterval 0 groups, x.Short := by
  intro x hx
  obtain ⟨p, hp, rfl⟩ := List.mem_map.mp hx
  exact h.short hp

/-- Every byte in front of the footer belongs to a block. -/
theorem Table.inBlock (h : Table cfg file groups num_keys bits) {i : ℕ}
    (hi : i < file.length - kFooterSize) :
    InBlock file (indexFrom cfg.restartInterval 0 groups) i := by
  have hlen := h.laid.length_file
  rw [InBlock, h.footerOf]
  have hindex : (tableFooter cfg groups num_keys bits).indexOff =
    dataLen cfg.restartInterval groups := rfl
  have hindexSize : (tableFooter cfg groups num_keys bits).indexSize =
    (tableIndex cfg groups).length := rfl
  have hfilter : (tableFooter cfg groups num_keys bits).filterOff =
    dataLen cfg.restartInterval groups + (tableIndex cfg groups).length := rfl
  have hfilterSize : (tableFooter cfg groups num_keys bits).filterSize =
    (filterBlock cfg num_keys bits).length := rfl
  rw [hindex, hindexSize, hfilter, hfilterSize]
  by_cases hdata : i < dataLen cfg.restartInterval groups
  · right
    right
    obtain ⟨p, hp, hle, hlt⟩ := exists_placed cfg.restartInterval (Nat.zero_le i)
      (by rwa [Nat.zero_add])
    refine ⟨_, List.mem_map_of_mem hp, hle, ?_⟩
    rw [(h.read_block hp).1]
    exact hlt
  · omega

end

/-- One byte of a published table changed in front of the footer: the file does not verify, a
scan ends in `CorruptionDetected`, and the first lookup of any key ends in it too or returns
what it did before. -/
theorem detected_of_one_byte (id created_at : ℕ) (mem : Memtable) (cfg : SstConfig)
    (h : WriteFits cfg mem) : ∃ result file, writeSstable id mem cfg = .ok (result, file) ∧
      ∀ i < file.length - kFooterSize, ∀ v, file[i]? ≠ some v →
        verifySstable (some (file.set i v)) ≠ .ok "OK" ∧
        (∃ e, scanSstable (some (file.set i v)) = .error e ∧ e.IsCorruption) ∧
        ∀ cache_index_blocks capacity key,
          SameOrCorrupt
            (ReadContext.get key (freshReader file (result.toMeta created_at) cache_index_blocks
              ⟨capacity, [], [], 0⟩)).2
            (ReadContext.get key (freshReader (file.set i v) (result.toMeta created_at)
              cache_index_blocks ⟨capacity, [], [], 0⟩)).2 := by
  obtain ⟨groups, htable, hflat, -⟩ := exists_table h
  obtain ⟨result, hwrite, -, hdesc⟩ := writeSstable_ok h id
  have hv := htable.verified
  have hscan : ∃ rows, scanSstable (some (tableBytes cfg mem)) = .ok rows := ⟨_, htable.scan⟩
  have hfilter := (hv.scan_iff.mp hscan).1
  have hlayout : LayoutValid (tableBytes cfg mem) := by
    by_contra hne
    obtain ⟨e, he⟩ := (hv.get hfilter (result.toMeta 0) result.minKey ⟨0, [], [], 0⟩ le_rfl
      (hdesc.maxKey.2 hdesc.minKey.1) false (by simp)).1 hne
    have hagree : Agrees cfg (tableBytes cfg mem) groups mem.entries (buildBlocks cfg mem).bits
        (result.toMeta 0) (freshReader (tableBytes cfg mem) (result.toMeta 0) false
          ⟨0, [], [], 0⟩) := agrees_freshReader false (by simp)
    obtain ⟨c, hget, -⟩ := hagree.get htable (filterFits_buildBlocks h hflat)
      (by rw [hflat]; exact mem.map.sorted)
      (fun e he => hdesc.minKey.2 ⟨e, hflat ▸ he, rfl⟩)
      (fun e he => hdesc.maxKey.2 ⟨e, hflat ▸ he, rfl⟩) result.minKey
    rw [hget] at he
    cases he
  refine ⟨result, _, hwrite, fun i hi v hne => ?_⟩
  have hin := htable.inBlock hi
  exact ⟨hv.not_verify_set hi hne hin, hv.scan_set htable.index_short hscan hi hne hin,
    fun cache_index_blocks capacity key => hv.get_set hfilter hlayout hi hne _ cache_index_blocks
      (by simp) key⟩

theorem detected_two_rows : ∃ result file,
    writeSstable 1 ((Memtable.apply [0x62] [1, 2] 7 false ⟨32, ∅, 0⟩).apply [0x61] [] 8 true)
      ⟨1, 1, 64, 1, .ten⟩ = .ok (result, file) ∧
      ∀ i < file.length - kFooterSize, ∀ v, file[i]? ≠ some v →
        verifySstable (some (file.set i v)) ≠ .ok "OK" ∧
        (∃ e, scanSstable (some (file.set i v)) = .error e ∧ e.IsCorruption) ∧
        ∀ key, SameOrCorrupt
          (ReadContext.get key (freshReader file (result.toMeta 0) true ⟨4096, [], [], 0⟩)).2
          (ReadContext.get key
            (freshReader (file.set i v) (result.toMeta 0) true ⟨4096, [], [], 0⟩)).2 := by
  obtain ⟨result, file, hwrite, hdetected⟩ := detected_of_one_byte 1 0 _ _ writeFits_two
  refine ⟨result, file, hwrite, fun i hi v hne => ?_⟩
  obtain ⟨hverify, hscan, hget⟩ := hdetected i hi v hne
  exact ⟨hverify, hscan, hget true 4096⟩

end Sst
end LsmKv
