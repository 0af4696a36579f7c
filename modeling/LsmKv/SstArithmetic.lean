import LsmKv.TableLookup
import LsmKv.WalAgreement
import Mathlib.Data.Nat.Count

/-!
# The writer's 32-bit fields

The data block loop again, with a record of every value it turns into a `u32` and of where the
rows of each block start.
-/

namespace LsmKv
namespace Sst
open WalFormat (kMaxPayload)

/-! ## The loop with its conversions -/

structure Traced where
  b : Builder
  /-- the values turned into a `u32` -/
  u32s : List ℕ := []
  /-- where the rows of the current block start -/
  starts : List ℕ := []
  /-- the restart points of the finished blocks, each with where its rows start -/
  finished : List (List ℕ × List ℕ) := []

namespace Traced

def push (cfg : SstConfig) (t : Traced) (e : Entry) : Traced where
  b := pushEntry cfg t.b e
  u32s := t.u32s ++
    ((if t.b.blockEntries % cfg.restartInterval = 0 then [t.b.block.length] else []) ++
      [e.1.length, e.2.value.length])
  starts := t.starts ++ [t.b.block.length]
  finished := t.finished

def finish (t : Traced) : Traced :=
  if t.b.block = [] then t
  else {
    b := finishBlock t.b
    u32s := t.u32s ++ [t.b.restarts.length, (blockBytes t.b.block t.b.restarts).length]
    finished := t.finished ++ [(t.b.restarts, t.starts)] }

def add (cfg : SstConfig) (t : Traced) (e : Entry) : Traced :=
  if cfg.blockSize ≤ (t.push cfg e).b.block.length then (t.push cfg e).finish else t.push cfg e

end Traced

def traceBlocks (cfg : SstConfig) (mem : Memtable) : Traced :=
  (mem.map.entries.foldl (Traced.add cfg) { b := { bits := Bloom.clear cfg.numBits } }).finish

/-- Key, value and block lengths, restart points and their number, and last the key lengths of
the index. -/
def u32Values (cfg : SstConfig) (mem : Memtable) : List ℕ :=
  (traceBlocks cfg mem).u32s ++ (traceBlocks cfg mem).b.index.map (fun x => x.firstKey.length)

structure ArithmeticSafe (cfg : SstConfig) (mem : Memtable) : Prop where
  remainder : ∀ id, writeSstable id mem cfg ≠ .error .divideByZero
  exact : ∀ v ∈ u32Values cfg mem, v % 2 ^ 32 = v
  restarts : ∀ p ∈ (traceBlocks cfg mem).finished,
    p.1.head? = some 0 ∧ p.1.Pairwise (· < ·) ∧ ∀ r ∈ p.1, r ∈ p.2

/-- The rows of a memtable that `Wal::append` let in. -/
def AcceptedRows (mem : Memtable) : Prop :=
  ∀ e ∈ mem.map.entries, e.1 ≠ [] ∧ e.1.length ≤ kMaxPayload ∧ e.2.value.length ≤ kMaxPayload

/-! ## Blocks as groups of rows -/

/-- Rows cut into groups, each ended by the row that brings it to `block_size`. `cur` has been
begun. -/
def cut (block_size : ℕ) : List Entry → List Entry → List (List Entry)
  | cur, [] => if cur = [] then [] else [cur]
  | cur, e :: es =>
    if block_size ≤ rowsLen (cur ++ [e]) then (cur ++ [e]) :: cut block_size [] es
    else cut block_size (cur ++ [e]) es

/-- A group with four bytes for the restart point of every `ri`-th row, their number and the
checksum. -/
def groupSize (ri : ℕ) (g : List Entry) : ℕ := rowsLen g + 4 * Nat.count (ri ∣ ·) g.length + 8

def rowU32s (ri : ℕ) : ℕ → ℕ → List Entry → List ℕ
  | _, _, [] => []
  | off, i, e :: es =>
    ((if i % 2 ^ 32 % ri = 0 then [off] else []) ++ [e.1.length, e.2.value.length]) ++
      rowU32s ri (off + entryLen e) (i + 1) es

def groupU32s (ri : ℕ) (g : List Entry) : List ℕ :=
  rowU32s ri 0 0 g ++ [(restartsOf ri g).length, (groupBytes ri g).length]

def rowStarts (g : List Entry) : List ℕ := (rowsAt 0 g).map Prod.fst

theorem rowU32s_append (ri off i : ℕ) (es fs : List Entry) :
    rowU32s ri off i (es ++ fs) =
      rowU32s ri off i es ++ rowU32s ri (off + rowsLen es) (i + es.length) fs := by
  induction es generalizing off i with
  | nil => simp [rowU32s, rowsLen]
  | cons e es ih =>
    rw [List.cons_append, rowU32s, rowU32s, ih, ← List.append_assoc, List.length_cons, rowsLen,
      rowsLen, List.map_cons, List.sum_cons, Nat.add_assoc off, Nat.add_right_comm i,
      Nat.add_assoc i]

theorem rowsAt_append (off : ℕ) (es fs : List Entry) :
    rowsAt off (es ++ fs) = rowsAt off es ++ rowsAt (off + rowsLen es) fs := by
  induction es generalizing off with
  | nil => rfl
  | cons e es ih =>
    rw [List.cons_append, rowsAt, rowsAt, ih, List.cons_append, rowsLen, rowsLen, List.map_cons,
      List.sum_cons, Nat.add_assoc]

/-- The record is that of the groups so far. -/
structure Traces (cfg : SstConfig) (t : Traced) (groups : List (List Entry)) (cur : List Entry) :
    Prop where
  filled : Filled cfg t.b groups cur
  u32s : t.u32s = groups.flatMap (groupU32s cfg.restartInterval) ++
    rowU32s cfg.restartInterval 0 0 cur
  starts : t.starts = rowStarts cur
  finished : t.finished = groups.map (fun g => (restartsOf cfg.restartInterval g, rowStarts g))

variable {cfg : SstConfig} {t : Traced} {groups : List (List Entry)} {cur : List Entry}

theorem Traces.push (h : Traces cfg t groups cur) (e : Entry) :
    Traces cfg (t.push cfg e) groups (cur ++ [e]) := by
  have hlen : t.b.block.length = rowsLen cur := by
    rw [h.filled.block, length_flatMap_encodeEntry]
  refine ⟨h.filled.push e, ?_, ?_, h.finished⟩
  · change t.u32s ++ _ = _
    rw [rowU32s_append, h.u32s, h.filled.count, hlen, List.append_assoc, rowU32s, rowU32s,
      Nat.zero_add, Nat.zero_add, List.append_nil]
  · change t.starts ++ _ = _
    rw [h.starts, hlen, rowStarts, rowStarts, rowsAt_append, List.map_append, Nat.zero_add]
    rfl

theorem Traces.finish (h : Traces cfg t groups cur) (hne : cur ≠ []) :
    Traces cfg t.finish (groups ++ [cur]) [] := by
  have hblock : ¬t.b.block = [] := fun hnil => hne (h.filled.block_eq_nil.mp hnil)
  have hbytes : blockBytes t.b.block t.b.restarts = groupBytes cfg.restartInterval cur := by
    rw [h.filled.block, h.filled.restarts]
    rfl
  rw [Traced.finish, if_neg hblock]
  refine ⟨h.filled.finish hne, ?_, rfl, ?_⟩
  · change t.u32s ++ [_, _] = _
    rw [h.u32s, hbytes, h.filled.restarts, List.flatMap_append, rowU32s, List.append_nil,
      List.append_assoc]
    simp [groupU32s]
  · change t.finished ++ [_] = _
    rw [h.finished, h.filled.restarts, h.starts, List.map_append]
    rfl

theorem Traces.add (h : Traces cfg t groups cur) (e : Entry) :
    Traces cfg (t.add cfg e)
      (if cfg.blockSize ≤ rowsLen (cur ++ [e]) then groups ++ [cur ++ [e]] else groups)
      (if cfg.blockSize ≤ rowsLen (cur ++ [e]) then [] else cur ++ [e]) := by
  have hpush := h.push e
  have hlen : (t.push cfg e).b.block.length = rowsLen (cur ++ [e]) := by
    rw [hpush.filled.block, length_flatMap_encodeEntry]
  rw [Traced.add, hlen]
  split
  · exact hpush.finish (by simp)
  · exact hpush

theorem Traces.foldl (h : Traces cfg t groups cur) (es : List Entry) :
    Traces cfg (es.foldl (Traced.add cfg) t).finish (groups ++ cut cfg.blockSize cur es) [] := by
  induction es generalizing t groups cur with
  | nil =>
    rw [cut]
    split
    · rename_i hnil
      subst hnil
      rw [List.append_nil, List.foldl_nil, Traced.finish,
        if_pos (h.filled.block_eq_nil.mpr rfl)]
      exact h
    · rename_i hne
      exact h.finish hne
  | cons e es ih =>
    have hrest := ih (h.add e)
    rw [cut]
    split
    · rename_i hfull
      rw [if_pos hfull, if_pos hfull, List.append_assoc] at hrest
      exact hrest
    · rename_i hfull
      rw [if_neg hfull, if_neg hfull] at hrest
      exact hrest

theorem traces_traceBlocks (cfg : SstConfig) (mem : Memtable) :
    Traces cfg (traceBlocks cfg mem) (cut cfg.blockSize [] mem.map.entries) [] := by
  have hstart : Traces cfg { b := { bits := Bloom.clear cfg.numBits } } [] [] :=
    ⟨filled_start cfg _, rfl, rfl, rfl⟩
  exact hstart.foldl mem.map.entries

/-- The record does not change what is built. -/
theorem traceBlocks_b (cfg : SstConfig) (mem : Memtable) :
    (traceBlocks cfg mem).b = buildBlocks cfg mem := by
  have hfinish : ∀ t : Traced, t.finish.b = finishBlock t.b := by
    intro t
    rw [Traced.finish]
    split
    · rename_i hnil
      rw [finishBlock, if_pos hnil]
    · rfl
  have hadd : ∀ (t : Traced) e, (t.add cfg e).b = addEntry cfg t.b e := by
    intro t e
    rw [Traced.add, addEntry]
    change (if cfg.blockSize ≤ (pushEntry cfg t.b e).block.length then _ else _ : Traced).b = _
    split
    · exact hfinish _
    · rfl
  have hfold : ∀ (es : List Entry) (t : Traced),
      (es.foldl (Traced.add cfg) t).b = es.foldl (addEntry cfg) t.b := by
    intro es
    induction es with
    | nil => exact fun _ => rfl
    | cons e es ih =>
      intro t
      rw [List.foldl_cons, List.foldl_cons, ih, hadd]
  rw [traceBlocks, hfinish, hfold, buildBlocks]

/-! ## What fits -/

theorem mem_rowU32s {ri off i v : ℕ} {es : List Entry} (hv : v ∈ rowU32s ri off i es) :
    v < off + rowsLen es ∨ ∃ e ∈ es, v = e.1.length ∨ v = e.2.value.length := by
  induction es generalizing off i with
  | nil => cases hv
  | cons e es ih =>
    have hpos := entryLen_pos e
    rw [rowsLen, List.map_cons, List.sum_cons]
    rw [rowU32s, List.mem_append, List.mem_append] at hv
    rcases hv with (hv | hv) | hv
    · split at hv
      · rw [List.mem_singleton] at hv
        omega
      · cases hv
    · refine .inr ⟨e, List.mem_cons_self, ?_⟩
      simpa using hv
    · rcases ih hv with hlt | ⟨a, ha, hlen⟩
      · rw [rowsLen] at hlt
        omega
      · exact .inr ⟨a, List.mem_cons_of_mem _ ha, hlen⟩

/-- As long as the rows are counted without a wrap, every `ri`-th one has a restart point. -/
theorem length_restartsOf {ri : ℕ} {g : List Entry} (hlen : g.length < 2 ^ 32) :
    (restartsOf ri g).length = Nat.count (ri ∣ ·) g.length := by
  induction g using List.reverseRecOn with
  | nil => rfl
  | append_singleton es e ih =>
    rw [List.length_append, List.length_singleton] at hlen ⊢
    have hmod : es.length % 2 ^ 32 = es.length := Nat.mod_eq_of_lt (by omega)
    rw [restartsOf, restartsFrom_append, List.length_append, ← restartsOf, ih (by omega),
      Nat.count_succ, restartsFrom, restartsFrom, List.append_nil, Nat.zero_add, hmod]
    simp only [Nat.dvd_iff_mod_eq_zero]
    split <;> rfl

theorem length_groupBytes_eq {ri : ℕ} {g : List Entry} (hrows : rowsLen g < 2 ^ 32) :
    (groupBytes ri g).length = groupSize ri g := by
  have hlen := length_le_rowsLen g
  rw [length_groupBytes, length_restartsOf (by omega), groupSize]

theorem groupBytes_lt_iff {ri : ℕ} {g : List Entry} :
    (groupBytes ri g).length < 2 ^ 32 ↔ groupSize ri g < 2 ^ 32 := by
  constructor
  · intro h
    have hlen := length_groupBytes ri g
    rwa [← length_groupBytes_eq (by omega)]
  · intro h
    rw [length_groupBytes_eq (by rw [groupSize] at h; omega)]
    exact h

theorem rowsLen_append (es fs : List Entry) : rowsLen (es ++ fs) = rowsLen es + rowsLen fs := by
  rw [rowsLen, List.map_append, List.sum_append]
  rfl

theorem starts_increasing (off : ℕ) (g : List Entry) :
    ((rowsAt off g).map Prod.fst).Pairwise (· < ·) := by
  induction g generalizing off with
  | nil => exact .nil
  | cons e es ih =>
    refine List.pairwise_cons.mpr ⟨fun start hstart => ?_, ih _⟩
    obtain ⟨p, hp, rfl⟩ := List.mem_map.mp hstart
    obtain ⟨before, after, -, hoff⟩ := mem_rowsAt hp
    have hpos := entryLen_pos e
    dsimp only
    omega

/-- The restart points of a block whose offsets fit. -/
theorem restartsOf_eq {ri : ℕ} {g : List Entry} (hrows : rowsLen g < 2 ^ 32) :
    restartsOf ri g = (startsFrom ri 0 0 g).map Prod.fst := by
  rw [restartsOf, restartsFrom_eq]
  refine List.map_congr_left (fun p hp => Nat.mod_eq_of_lt ?_)
  obtain ⟨before, after, hg, hoff⟩ := mem_rowsAt ((startsFrom_sublist ri 0 0 g).subset hp)
  rw [hg, rowsLen_append] at hrows
  omega

theorem restartsOf_sound {ri : ℕ} {g : List Entry} (hne : g ≠ []) (hrows : rowsLen g < 2 ^ 32) :
    (restartsOf ri g).head? = some 0 ∧ (restartsOf ri g).Pairwise (· < ·) ∧
      ∀ r ∈ restartsOf ri g, r ∈ rowStarts g := by
  have hsub : (restartsOf ri g).Sublist (rowStarts g) := by
    rw [restartsOf_eq hrows]
    exact (startsFrom_sublist ri 0 0 g).map _
  refine ⟨?_, (starts_increasing 0 g).sublist hsub, fun r hr => hsub.subset hr⟩
  obtain ⟨e, es, rfl⟩ := List.exists_cons_of_ne_nil hne
  rw [restartsOf_eq hrows, startsFrom_cons]
  rfl

/-! ## cut -/

theorem flatten_cut (block_size : ℕ) (cur es : List Entry) :
    (cut block_size cur es).flatten = cur ++ es := by
  induction es generalizing cur with
  | nil =>
    rw [cut]
    split
    · rename_i hnil
      subst hnil
      rfl
    · simp
  | cons e es ih =>
    rw [cut]
    split
    · rw [List.flatten_cons, ih]
      simp
    · rw [ih]
      simp

theorem mem_of_mem_cut {block_size : ℕ} {es g : List Entry} (hg : g ∈ cut block_size [] es)
    {e : Entry} (he : e ∈ g) : e ∈ es := by
  have hmem : e ∈ (cut block_size [] es).flatten := List.mem_flatten.mpr ⟨g, hg, he⟩
  rwa [flatten_cut, List.nil_append] at hmem

/-- A group falls short of `block_size` but for its last row. -/
theorem cut_short {block_size : ℕ} {cur es g : List Entry}
    (hcur : cur = [] ∨ rowsLen cur < block_size) (hg : g ∈ cut block_size cur es) :
    g.dropLast = [] ∨ rowsLen g.dropLast < block_size := by
  induction es generalizing cur with
  | nil =>
    rw [cut] at hg
    split at hg
    · cases hg
    · obtain rfl := List.mem_singleton.mp hg
      rcases hcur with rfl | hlt
      · exact .inl rfl
      · refine .inr (lt_of_le_of_lt ?_ hlt)
        rcases List.eq_nil_or_concat' g with rfl | ⟨rows, e, rfl⟩
        · exact le_rfl
        · rw [List.dropLast_concat, rowsLen_append]
          exact Nat.le_add_right _ _
  | cons e es ih =>
    rw [cut] at hg
    split at hg
    · rcases List.mem_cons.mp hg with rfl | hg
      · rwa [List.dropLast_concat]
      · exact ih (.inl rfl) hg
    · rename_i hshort
      exact ih (.inr (Nat.lt_of_not_le hshort)) hg

/-! ## When the arithmetic is safe -/

theorem mem_u32Values {cfg : SstConfig} {mem : Memtable} {v : ℕ} :
    v ∈ u32Values cfg mem ↔ ∃ g ∈ cut cfg.blockSize [] mem.map.entries,
      v ∈ groupU32s cfg.restartInterval g ∨ v = (firstKeyOf g).length := by
  have h := traces_traceBlocks cfg mem
  have hkeys : (indexFrom cfg.restartInterval 0 (cut cfg.blockSize [] mem.map.entries)).map
      (fun x => x.firstKey.length) =
        (cut cfg.blockSize [] mem.map.entries).map (fun g => (firstKeyOf g).length) := by
    rw [indexFrom, List.map_map]
    conv_rhs => rw [← map_snd_placed cfg.restartInterval 0 (cut cfg.blockSize [] _)]
    rw [List.map_map]
    rfl
  rw [u32Values, h.u32s, h.filled.index, hkeys, rowU32s, List.append_nil, List.mem_append,
    List.mem_flatMap, List.mem_map]
  constructor
  · rintro (⟨g, hg, hv⟩ | ⟨g, hg, rfl⟩)
    · exact ⟨g, hg, .inl hv⟩
    · exact ⟨g, hg, .inr rfl⟩
  · rintro ⟨g, hg, hv | rfl⟩
    · exact .inl ⟨g, hg, hv⟩
    · exact .inr ⟨g, hg, rfl⟩

/-- All that a block contributes fits when its size does. -/
theorem groupU32s_lt {ri v : ℕ} {g : List Entry}
    (haccepted : ∀ e ∈ g, e.1.length ≤ kMaxPayload ∧ e.2.value.length ≤ kMaxPayload)
    (hsize : groupSize ri g < 2 ^ 32) (hv : v ∈ groupU32s ri g) : v < 2 ^ 32 := by
  have hbytes := groupBytes_lt_iff.mpr hsize
  have hlen := length_groupBytes ri g
  have hmax : kMaxPayload < 2 ^ 32 := by decide
  rw [groupU32s, List.mem_append, List.mem_pair] at hv
  rcases hv with hv | rfl | rfl
  · rcases mem_rowU32s hv with hlt | ⟨e, he, rfl | rfl⟩
    · omega
    · exact (haccepted e he).1.trans_lt hmax
    · exact (haccepted e he).2.trans_lt hmax
  · omega
  · exact hbytes

theorem ArithmeticSafe.groupSize_lt {cfg : SstConfig} {mem : Memtable}
    (h : ArithmeticSafe cfg mem) :
    ∀ g ∈ cut cfg.blockSize [] mem.map.entries, groupSize cfg.restartInterval g < 2 ^ 32 := by
  intro g hg
  refine groupBytes_lt_iff.mp ((Nat.mod_eq_iff_lt (by decide)).mp (h.exact _ ?_))
  exact mem_u32Values.mpr ⟨g, hg, .inl (List.mem_append_right _ (by simp))⟩

theorem writeSstable_divides {cfg : SstConfig} {mem : Memtable} (hrows : mem.map.entries ≠ [])
    (id : ℕ) : writeSstable id mem cfg = .error .divideByZero ↔ cfg.restartInterval = 0 := by
  rw [writeSstable]
  split
  · rename_i hnil
    exact absurd hnil hrows
  · split
    · rename_i hzero
      exact iff_of_true rfl hzero
    · rename_i hzero
      exact iff_of_false (by simp) hzero

theorem arithmeticSafe_of_groupSize {cfg : SstConfig} {mem : Memtable}
    (hrows : mem.map.entries ≠ []) (haccepted : AcceptedRows mem)
    (hinterval : cfg.restartInterval ≠ 0)
    (hsize : ∀ g ∈ cut cfg.blockSize [] mem.map.entries,
      groupSize cfg.restartInterval g < 2 ^ 32) : ArithmeticSafe cfg mem := by
  have htraces := traces_traceBlocks cfg mem
  refine ⟨fun id hdivides => hinterval ((writeSstable_divides hrows id).mp hdivides),
    fun v hv => Nat.mod_eq_of_lt ?_, fun p hp => ?_⟩
  · obtain ⟨g, hg, hv⟩ := mem_u32Values.mp hv
    have hfits : ∀ e ∈ g, e.1.length ≤ kMaxPayload ∧ e.2.value.length ≤ kMaxPayload :=
      fun e he => (haccepted e (mem_of_mem_cut hg he)).2
    rcases hv with hv | rfl
    · exact groupU32s_lt hfits (hsize g hg) hv
    · obtain ⟨e, es, rfl⟩ := List.exists_cons_of_ne_nil (htraces.filled.nonempty g hg)
      exact (hfits e List.mem_cons_self).1.trans_lt (by decide)
  · rw [htraces.finished] at hp
    obtain ⟨g, hg, rfl⟩ := List.mem_map.mp hp
    have hlt := hsize g hg
    rw [groupSize] at hlt
    exact restartsOf_sound (htraces.filled.nonempty g hg) (by omega)

theorem header_le_rowsLen (es : List Entry) : 17 * es.length ≤ rowsLen es := by
  induction es with
  | nil => exact Nat.zero_le _
  | cons e es ih =>
    rw [rowsLen, List.map_cons, List.sum_cons, List.length_cons, entryLen, kEntryHeader]
    rw [rowsLen] at ih
    omega

/-- Blocks of at most a quarter of the range never come near the end of it. -/
theorem groupSize_lt_of_small {cfg : SstConfig} {mem : Memtable} (haccepted : AcceptedRows mem)
    (hsmall : cfg.blockSize ≤ 2 ^ 30) {g : List Entry}
    (hg : g ∈ cut cfg.blockSize [] mem.map.entries) : groupSize cfg.restartInterval g < 2 ^ 32 := by
  have hcount : Nat.count (cfg.restartInterval ∣ ·) g.length ≤ g.length := Nat.count_le _
  rw [groupSize]
  rcases List.eq_nil_or_concat' g with rfl | ⟨rows, e, rfl⟩
  · rw [rowsLen, List.map_nil, List.sum_nil, List.length_nil, Nat.count_zero]
    decide
  have hshort := cut_short (.inl rfl) hg
  have hrows := header_le_rowsLen rows
  obtain ⟨-, hkey, hvalue⟩ := haccepted e (mem_of_mem_cut hg (by simp))
  have hlast : rowsLen [e] = kEntryHeader + e.1.length + e.2.value.length := by
    simp [rowsLen, entryLen]
  rw [List.length_append, List.length_singleton] at hcount
  rw [rowsLen_append, hlast, List.length_append, List.length_singleton]
  rw [List.dropLast_concat] at hshort
  simp only [kMaxPayload, kEntryHeader] at *
  rcases hshort with rfl | hshort
  · simp only [rowsLen, List.map_nil, List.sum_nil, List.length_nil] at *
    omega
  · omega

theorem arithmeticSafe_of_small {cfg : SstConfig} {mem : Memtable} (hrows : mem.map.entries ≠ [])
    (haccepted : AcceptedRows mem) (hinterval : cfg.restartInterval ≠ 0)
    (hsmall : cfg.blockSize ≤ 2 ^ 30) : ArithmeticSafe cfg mem :=
  arithmeticSafe_of_groupSize hrows haccepted hinterval
    (fun _ hg => groupSize_lt_of_small haccepted hsmall hg)

/-- What a put or remove adds to a memtable has passed the checks of the log. -/
theorem AcceptedRows.apply {mem : Memtable} (h : AcceptedRows mem) {q : Wal.Request}
    (hq : q.Accepted) (seqno : ℕ) : AcceptedRows (mem.apply q.key q.value seqno q.isDel) := by
  intro e he
  rw [Memtable.map_apply] at he
  rcases OrderedMap.mem_insertList he with rfl | he
  · exact hq
  · exact h e he

/-- The arithmetic of the writer is safe exactly when `restart_interval` is not zero and no
block takes `2 ^ 32` bytes. -/
theorem arithmeticSafe_iff {cfg : SstConfig} {mem : Memtable} (hrows : mem.map.entries ≠ [])
    (haccepted : AcceptedRows mem) :
    ArithmeticSafe cfg mem ↔ cfg.restartInterval ≠ 0 ∧
      ∀ g ∈ cut cfg.blockSize [] mem.map.entries, groupSize cfg.restartInterval g < 2 ^ 32 := by
  constructor
  · intro h
    exact ⟨fun hzero => h.remainder 0 ((writeSstable_divides hrows 0).mpr hzero), h.groupSize_lt⟩
  · rintro ⟨hinterval, hsize⟩
    exact arithmeticSafe_of_groupSize hrows haccepted hinterval hsize

theorem acceptedRows_foldl (value : ℕ → Bytes) (hvalue : ∀ n, (value n).length ≤ kMaxPayload)
    (ns : List ℕ) : AcceptedRows
      (ns.foldl (fun mem n => mem.apply [n.toUInt8] (value n) n false) { overhead := 0 }) := by
  induction ns using List.reverseRecOn with
  | nil => exact nofun
  | append_singleton ns n ih =>
    rw [List.foldl_append]
    exact ih.apply (q := .put [n.toUInt8] (value n))
      ⟨List.cons_ne_nil _ _, Nat.le_add_left 1 _, hvalue n⟩ n

def sevenRows : Memtable :=
  [1, 2, 3, 4, 5, 6, 7].foldl (fun mem n => mem.apply [n.toUInt8] [n.toUInt8] n false)
    { overhead := 0 }

/-- Two full blocks and a third, with a restart point at every second row. -/
theorem arithmeticSafe_sevenRows :
    (cut 40 [] sevenRows.map.entries).map List.length = [3, 3, 1] ∧
      ArithmeticSafe ⟨40, 2, 64, 1, .ten⟩ sevenRows :=
  have haccepted := acceptedRows_foldl (fun n => [n.toUInt8]) (fun _ => Nat.le_add_left 1 _) _
  ⟨by decide, (arithmeticSafe_iff (by decide) haccepted).mpr ⟨by decide, by decide⟩⟩

def oneRow : Memtable := ({ overhead := 0 } : Memtable).apply [0x61] [0x62] 1 false

theorem acceptedRows_oneRow : AcceptedRows oneRow := by
  have hempty : AcceptedRows { overhead := 0 } := nofun
  exact hempty.apply (q := .put [0x61] [0x62]) ⟨List.cons_ne_nil _ _, by decide, by decide⟩ 1

/-- Four rows of a gigabyte each. -/
def giantRows (value : Bytes) : Memtable :=
  ([1, 2, 3, 4].foldl (fun mem n => mem.apply [n.toUInt8] value n false) { overhead := 0 })

theorem entries_giantRows (value : Bytes) : (giantRows value).map.entries =
    [([1], ⟨value, 1, false⟩), ([2], ⟨value, 2, false⟩), ([3], ⟨value, 3, false⟩),
      ([4], ⟨value, 4, false⟩)] := by
  simp only [giantRows, List.foldl_cons, List.foldl_nil, Memtable.map_apply]
  rfl

theorem acceptedRows_giantRows {value : Bytes} (hvalue : value.length = kMaxPayload) :
    AcceptedRows (giantRows value) :=
  acceptedRows_foldl (fun _ => value) (fun _ => hvalue.le) _

/-- A `restart_interval` of zero divides by zero, and four rows of a gigabyte in one block are
too much for its size field. -/
theorem arithmetic_unsafe :
    (oneRow.map.entries ≠ [] ∧ AcceptedRows oneRow ∧ ¬ArithmeticSafe ⟨4096, 0, 8, 1, .ten⟩ oneRow) ∧
    ∃ value, (giantRows value).map.entries ≠ [] ∧ AcceptedRows (giantRows value) ∧
      ¬ArithmeticSafe ⟨2 ^ 32 - 1, 16, 8, 1, .ten⟩ (giantRows value) := by
  refine ⟨⟨by decide, acceptedRows_oneRow, fun h => ?_⟩, ?_⟩
  · exact h.remainder 0 ((writeSstable_divides (by decide) 0).mpr rfl)
  obtain ⟨value, hvalue⟩ : ∃ value : Bytes, value.length = kMaxPayload :=
    ⟨List.replicate kMaxPayload 0, List.length_replicate⟩
  refine ⟨value, ?_, acceptedRows_giantRows hvalue, fun h => ?_⟩
  · rw [entries_giantRows]
    exact List.cons_ne_nil _ _
  · have hgroups := h.groupSize_lt
    rw [entries_giantRows] at hgroups
    simp [cut, rowsLen, entryLen, kEntryHeader, hvalue, kMaxPayload, groupSize] at hgroups
    omega

end Sst
end LsmKv
