import LsmKv.Lists
import LsmKv.SstRoundTrip
import LsmKv.TableReader

/-!
# A lookup finds what was written

In a table's file the restart points and the index narrow the search to the rows a lookup of
the whole memtable would stop at, and the filter never hides one. The reader's lazily loaded
parts and the cache stay right over any sequence of lookups.
-/

namespace LsmKv
namespace Sst
open OrderedMap

/-! ## Lookups in sorted rows -/

section
variable {key : Bytes} {es fs : List Entry}

theorem findList_of_lt (h : ∀ e ∈ es, key < e.1) : findList key es = none :=
  findList_eq_none_iff.mpr (fun e he => (h e he).ne')

theorem findList_skip (h : ∀ e ∈ es, e.1 < key) : findList key (es ++ fs) = findList key fs := by
  rw [findList_append, findList_eq_none_iff.mpr (fun e he => (h e he).ne), Option.none_or]

theorem findList_cut (h : ∀ e ∈ fs, key < e.1) : findList key (es ++ fs) = findList key es := by
  rw [findList_append, findList_of_lt h, Option.or_none]

end

/-! ## The forward scan -/

theorem findEntry_rows {base : ℕ} {block key : Bytes} {entries_end : ℕ} {es : List Entry}
    (hfits : ∀ e ∈ es, EntryFits e) (hsorted : es.Pairwise (fun a b => a.1 < b.1)) {pos fuel : ℕ}
    (hfuel : es.length ≤ fuel) (hat : HasAt block pos (es.flatMap encodeEntry))
    (hend : pos + rowsLen es = entries_end) :
    TableReader.findEntry base block entries_end key fuel pos = .ok (findList key es) := by
  induction es generalizing pos fuel with
  | nil =>
    have hstop : ¬pos < entries_end := by simp [← hend, rowsLen]
    cases fuel with
    | zero => rfl
    | succ fuel => rw [TableReader.findEntry, if_neg hstop]; rfl
  | cons e es ih =>
    cases fuel with
    | zero => simp at hfuel
    | succ fuel =>
      have hlen : entryLen e + rowsLen es = rowsLen (e :: es) := rfl
      have hpos := entryLen_pos e
      obtain ⟨hlt, htail⟩ := List.pairwise_cons.mp hsorted
      rw [List.flatMap_cons] at hat
      have hrest := hat.right
      rw [length_encodeEntry] at hrest
      rw [TableReader.findEntry, if_pos (by omega),
        readEntry_of_hasAt (hfits e List.mem_cons_self) hat.left (by omega)]
      dsimp only
      by_cases heq : e.1 = key
      · rw [if_pos heq]
        simp [findList, heq]
      · have hfind : findList key (e :: es) = findList key es := by simp [findList, heq]
        rw [if_neg heq, hfind]
        split
        · rename_i hgt
          rw [findList_of_lt (fun x hx => hgt.trans (hlt x hx))]
        · exact ih (fun x hx => hfits x (List.mem_cons_of_mem _ hx)) htail
            (by simpa using hfuel) hrest (by omega)

/-! ## Restart points -/

/-- Rows with their offsets in the block. -/
def rowsAt : ℕ → List Entry → List (ℕ × Entry)
  | _, [] => []
  | off, e :: es => (off, e) :: rowsAt (off + entryLen e) es

/-- The rows restart points lead to. -/
def startsFrom (ri : ℕ) : ℕ → ℕ → List Entry → List (ℕ × Entry)
  | _, _, [] => []
  | off, i, e :: es =>
    (if i % 2 ^ 32 % ri = 0 then [(off, e)] else []) ++
      startsFrom ri (off + entryLen e) (i + 1) es

theorem restartsFrom_eq (ri off i : ℕ) (es : List Entry) :
    restartsFrom ri off i es = (startsFrom ri off i es).map (fun p => p.1 % 2 ^ 32) := by
  induction es generalizing off i with
  | nil => rfl
  | cons e es ih =>
    rw [restartsFrom, startsFrom, ih, List.map_append]
    split <;> rfl

theorem startsFrom_sublist (ri off i : ℕ) (es : List Entry) :
    (startsFrom ri off i es).Sublist (rowsAt off es) := by
  induction es generalizing off i with
  | nil => exact .slnil
  | cons e es ih =>
    rw [startsFrom, rowsAt]
    split
    · exact (ih _ _).cons_cons _
    · exact (ih _ _).cons _

theorem map_snd_rowsAt (off : ℕ) (es : List Entry) : (rowsAt off es).map Prod.snd = es := by
  induction es generalizing off with
  | nil => rfl
  | cons e es ih => rw [rowsAt, List.map_cons, ih]

/-- A placed row splits the rows at its offset. -/
theorem mem_rowsAt {off : ℕ} {es : List Entry} {p : ℕ × Entry} (h : p ∈ rowsAt off es) :
    ∃ before after, es = before ++ p.2 :: after ∧ p.1 = off + rowsLen before := by
  induction es generalizing off with
  | nil => cases h
  | cons e es ih =>
    rcases List.mem_cons.mp h with rfl | h
    · exact ⟨[], es, rfl, rfl⟩
    · obtain ⟨before, after, heq, hoff⟩ := ih h
      refine ⟨e :: before, after, by rw [heq]; rfl, ?_⟩
      rw [hoff, rowsLen, rowsLen, List.map_cons, List.sum_cons, Nat.add_assoc]

section
variable {ri : ℕ} {g : List Entry}

theorem startsFrom_cons (ri off : ℕ) (e : Entry) (es : List Entry) :
    startsFrom ri off 0 (e :: es) = (off, e) :: startsFrom ri (off + entryLen e) 1 es := by
  simp [startsFrom]

theorem sorted_starts (hsorted : g.Pairwise (fun a b => a.1 < b.1)) :
    (startsFrom ri 0 0 g).Pairwise (fun a b => a.2.1 < b.2.1) := by
  have hrows : (rowsAt 0 g).Pairwise (fun a b => a.2.1 < b.2.1) := by
    rw [← List.pairwise_map (f := Prod.snd) (R := fun a b : Entry => a.1 < b.1), map_snd_rowsAt]
    exact hsorted
  exact hrows.sublist (startsFrom_sublist ri 0 0 g)

/-- The offset a reader finds for a restart point. -/
theorem restartAt_groupBytes (hsmall : (groupBytes ri g).length < 2 ^ 32) {i : ℕ}
    {p : ℕ × Entry} (hp : (startsFrom ri 0 0 g)[i]? = some p) :
    TableReader.restartAt (groupBytes ri g) (rowsLen g) i = .ok p.1 := by
  obtain ⟨front, back, hstarts, hfront⟩ := split_of_getElem? hp
  have hmem : p ∈ rowsAt 0 g :=
    (startsFrom_sublist ri 0 0 g).subset (by rw [hstarts]; simp)
  obtain ⟨before, after, hsplit, hoff⟩ := mem_rowsAt hmem
  have hlen := length_groupBytes ri g
  have hrows : rowsLen before ≤ rowsLen g := by
    rw [hsplit, rowsLen, rowsLen, List.map_append, List.sum_append]
    exact Nat.le_add_right _ _
  have hlt : p.1 < 2 ^ 32 := by omega
  have hlist : restartsOf ri g = front.map (fun p => p.1 % 2 ^ 32) ++
      p.1 :: back.map (fun p => p.1 % 2 ^ 32) := by
    rw [restartsOf, restartsFrom_eq, hstarts, List.map_append, List.map_cons,
      Nat.mod_eq_of_lt hlt]
  have hitem := hasAt_flatMap putU32 (front.map (fun p => p.1 % 2 ^ 32)) p.1
    (back.map (fun p => p.1 % 2 ^ 32))
  have hpos : ((front.map (fun p => p.1 % 2 ^ 32)).map (fun a => (putU32 a).length)).sum =
      4 * i := by
    simp only [length_putU32, List.map_const', List.sum_replicate_nat, List.length_map, hfront,
      Nat.mul_comm]
  rw [← hlist, hpos] at hitem
  have hat := (hasAt_groupBytes ri g).2.1.trans hitem
  rw [TableReader.restartAt, hat.readLe hlt, demand_some]

theorem keyAt_groupBytes (hfits : ∀ e ∈ g, EntryFits e) {p : ℕ × Entry}
    (hp : p ∈ rowsAt 0 g) : TableReader.keyAt (groupBytes ri g) p.1 = .ok p.2.1 := by
  obtain ⟨before, after, hsplit, hoff⟩ := mem_rowsAt hp
  have hitem := hasAt_flatMap encodeEntry before p.2 after
  simp only [length_encodeEntry, ← hsplit] at hitem
  have hat := (hasAt_groupBytes ri g).1.trans hitem
  rw [hoff]
  have hfit := hfits p.2 (by rw [hsplit]; simp)
  have hkey := hat.right.right.right
  rw [length_putU32, length_putU32, length_putU64] at hkey
  have hbody := (hasAt_append (s := [_]).mp hkey).2.left
  have hoff' : 0 + (before.map entryLen).sum + 4 + 4 + 8 + [if p.2.2.tombstone = true then
      kFlagTombstone else 0].length = 0 + rowsLen before + kEntryHeader := by
    simp [rowsLen, kEntryHeader]
  rw [hoff'] at hbody
  have hklen := hat.left.readLe hfit.key
  rw [TableReader.keyAt, show rowsLen before = (before.map entryLen).sum from rfl, hklen,
    demand_some, ok_bind]
  exact congrArg (demand Fault.outside) (hbody.readAt rfl)

theorem length_starts (ri : ℕ) (g : List Entry) :
    (startsFrom ri 0 0 g).length = (restartsOf ri g).length := by
  rw [restartsOf, restartsFrom_eq, List.length_map]

theorem restartNotAbove_groupBytes (hfits : ∀ e ∈ g, EntryFits e)
    (hsmall : (groupBytes ri g).length < 2 ^ 32) (key : Bytes) {i : ℕ}
    {p : ℕ × Entry} (hp : (startsFrom ri 0 0 g)[i]? = some p) :
    TableReader.restartNotAbove (groupBytes ri g) (rowsLen g) key i =
      .ok (decide (p.2.1 ≤ key)) := by
  have hmem := (startsFrom_sublist ri 0 0 g).subset (List.mem_of_getElem? hp)
  rw [TableReader.restartNotAbove, restartAt_groupBytes hsmall hp, ok_bind,
    keyAt_groupBytes hfits hmem]
  rfl

/-- The binary search ends at a restart point with only smaller keys before it. -/
theorem bisect_starts (ri : ℕ) (hfits : ∀ e ∈ g, EntryFits e)
    (hsorted : g.Pairwise (fun a b => a.1 < b.1)) (hne : g ≠ [])
    (hsmall : (groupBytes ri g).length < 2 ^ 32) (key : Bytes) :
    ∃ lo p, bisect (TableReader.restartNotAbove (groupBytes ri g) (rowsLen g) key)
        (restartsOf ri g).length 0 (restartsOf ri g).length = .ok lo ∧
      (startsFrom ri 0 0 g)[lo]? = some p ∧ (p.1 = 0 ∨ p.2.1 ≤ key) := by
  set starts := startsFrom ri 0 0 g with hdef
  have hlen : starts.length = (restartsOf ri g).length := length_starts ri g
  have hfirst : ∃ e, starts[0]? = some (0, e) := by
    obtain ⟨e, es, rfl⟩ := List.exists_cons_of_ne_nil hne
    exact ⟨e, by rw [hdef, startsFrom_cons]; rfl⟩
  obtain ⟨first, hfirst⟩ := hfirst
  have hpos := (List.getElem?_eq_some_iff.mp hfirst).1
  set holds : ℕ → Bool := fun i => (starts[i]?).any (fun p => p.2.1 ≤ key) with hholds
  have htest : ∀ i, 0 < i → i < (restartsOf ri g).length →
      TableReader.restartNotAbove (groupBytes ri g) (rowsLen g) key i = .ok (holds i) := by
    intro i _ hi
    have hget := List.getElem?_eq_getElem (hlen.symm ▸ hi)
    rw [restartNotAbove_groupBytes hfits hsmall key hget, hholds]
    simp only [hget, Option.any_some]
  have hanti : ∀ i j, 0 < i → i ≤ j → j < (restartsOf ri g).length → holds j = true →
      holds i = true := by
    intro i j _ hij hj hjh
    have hi' : i < starts.length := by omega
    have hj' : j < starts.length := by omega
    simp only [hholds, List.getElem?_eq_getElem hi', List.getElem?_eq_getElem hj',
      Option.any_some, decide_eq_true_eq] at hjh ⊢
    rcases Nat.eq_or_lt_of_le hij with rfl | hlt
    · exact hjh
    · exact ((List.pairwise_iff_getElem.mp (sorted_starts hsorted) i j hi' hj' hlt).le).trans hjh
  obtain ⟨lo, hlo, -, hlt, hor, -⟩ := bisect_spec htest hanti
    (Nat.sub_le (restartsOf ri g).length 0) le_rfl (by omega) le_rfl (.inl rfl)
    (fun i h₁ h₂ => by omega)
  have hget := List.getElem?_eq_getElem (l := starts) (i := lo) (by omega)
  refine ⟨lo, _, hlo, hget, ?_⟩
  rcases hor with rfl | hhold
  · rw [hfirst] at hget
    exact .inl (congrArg Prod.fst (Option.some.inj hget)).symm
  · simp only [hholds, hget, Option.any_some, decide_eq_true_eq] at hhold
    exact .inr hhold

theorem searchBlock_groupBytes (hfits : ∀ e ∈ g, EntryFits e)
    (hsorted : g.Pairwise (fun a b => a.1 < b.1)) (hne : g ≠ [])
    (hsmall : (groupBytes ri g).length < 2 ^ 32) (base : ℕ) (key : Bytes) :
    TableReader.searchBlock base (groupBytes ri g) key = .ok (findList key g) := by
  obtain ⟨lo, p, hlo, hp, hor⟩ := bisect_starts ri hfits hsorted hne hsmall key
  have hlen := length_groupBytes ri g
  have hcount : ¬((restartsOf ri g).length = 0 ∨
      (groupBytes ri g).length < 8 + 4 * (restartsOf ri g).length) := by
    have := (List.getElem?_eq_some_iff.mp hp).1
    rw [length_starts] at this
    omega
  have hoff : (groupBytes ri g).length - 8 - 4 * (restartsOf ri g).length = rowsLen g := by omega
  rw [TableReader.searchBlock, readLe_restartCount hsmall, demand_some, ok_bind, if_neg hcount,
    hoff]
  simp only [hlo, ok_bind, restartAt_groupBytes hsmall hp]
  have hmem := (startsFrom_sublist ri 0 0 g).subset (List.mem_of_getElem? hp)
  obtain ⟨before, after, hsplit, hpos⟩ := mem_rowsAt hmem
  rw [Nat.zero_add] at hpos
  -- the rows before the restart point are not above it
  have hskip : findList key g = findList key (p.2 :: after) := by
    conv_lhs => rw [hsplit]
    rcases hor with hzero | hle
    · have hnil : before = [] := by
        by_contra hbefore
        have := rowsLen_pos hbefore
        rw [kEntryHeader] at this
        omega
      rw [hnil, List.nil_append]
    · refine findList_skip (fun e he => lt_of_lt_of_le ?_ hle)
      rw [hsplit] at hsorted
      exact (List.pairwise_append.mp hsorted).2.2 e he p.2 List.mem_cons_self
  rw [hskip]
  have hrows : rowsLen before + rowsLen (p.2 :: after) = rowsLen g := by
    rw [hsplit, rowsLen, rowsLen, rowsLen, List.map_append, List.sum_append]
  have hnum := length_le_rowsLen (p.2 :: after)
  have hat : HasAt (groupBytes ri g) p.1 ((p.2 :: after).flatMap encodeEntry) := by
    have hall := (hasAt_groupBytes ri g).1
    rw [hsplit, List.flatMap_append] at hall
    have hrest := hall.right
    rw [length_flatMap_encodeEntry, Nat.zero_add, ← hpos, ← hsplit] at hrest
    exact hrest
  refine findEntry_rows (fun e he => hfits e ?_) ?_ (by omega) hat (by omega)
  · rw [hsplit]
    exact List.mem_append_right _ he
  · rw [hsplit] at hsorted
    exact (List.pairwise_append.mp hsorted).2.1

end

/-! ## The index -/

section
variable {ri : ℕ} {groups : List (List Entry)}

theorem firstKeyOf_mem {g : List Entry} (hne : g ≠ []) : ∃ e ∈ g, e.1 = firstKeyOf g := by
  obtain ⟨e, es, rfl⟩ := List.exists_cons_of_ne_nil hne
  exact ⟨e, List.mem_cons_self, rfl⟩

theorem firstKeyOf_le {g : List Entry} (hsorted : g.Pairwise (fun a b => a.1 < b.1)) :
    ∀ e ∈ g, firstKeyOf g ≤ e.1 := by
  intro e he
  cases g with
  | nil => cases he
  | cons x xs =>
    rcases List.mem_cons.mp he with rfl | he
    · exact le_rfl
    · exact ((List.pairwise_cons.mp hsorted).1 e he).le

theorem sorted_groups (hsorted : groups.flatten.Pairwise (fun a b => a.1 < b.1)) :
    (∀ g ∈ groups, g.Pairwise (fun a b => a.1 < b.1)) ∧
      groups.Pairwise (fun g g' => ∀ e ∈ g, ∀ e' ∈ g', e.1 < e'.1) :=
  List.pairwise_flatten.mp hsorted

/-- First keys ascend with the blocks. -/
theorem firstKey_le_firstKey (hne : ∀ g ∈ groups, g ≠ [])
    (hsorted : groups.flatten.Pairwise (fun a b => a.1 < b.1)) {i j : ℕ} {g g' : List Entry}
    (hi : groups[i]? = some g) (hj : groups[j]? = some g') (hij : i ≤ j) :
    firstKeyOf g ≤ firstKeyOf g' := by
  rcases Nat.eq_or_lt_of_le hij with rfl | hlt
  · rw [hi] at hj
    exact (congrArg firstKeyOf (Option.some.inj hj)).le
  · obtain ⟨hil, rfl⟩ := List.getElem?_eq_some_iff.mp hi
    obtain ⟨hjl, rfl⟩ := List.getElem?_eq_some_iff.mp hj
    obtain ⟨e, he, hek⟩ := firstKeyOf_mem (hne _ (List.getElem_mem hil))
    obtain ⟨e', he', hek'⟩ := firstKeyOf_mem (hne _ (List.getElem_mem hjl))
    have hpair := List.pairwise_iff_getElem.mp (sorted_groups hsorted).2 i j hil hjl hlt
    exact hek ▸ hek' ▸ (hpair e he e' he').le

theorem getElem?_indexFrom (ri : ℕ) (groups : List (List Entry)) (i : ℕ) :
    (indexFrom ri 0 groups)[i]?.map IndexEntry.firstKey = groups[i]?.map firstKeyOf := by
  rw [indexFrom, List.getElem?_map, Option.map_map]
  conv_rhs => rw [← map_snd_placed ri 0 groups, List.getElem?_map, Option.map_map]
  rfl

/-- The index leads to the one block that can hold the key. -/
theorem lastNotAbove_indexFrom (ri : ℕ) (hne : ∀ g ∈ groups, g ≠ [])
    (hsorted : groups.flatten.Pairwise (fun a b => a.1 < b.1)) (key : Bytes) :
    (ReadContext.lastNotAbove (indexFrom ri 0 groups) key = none ∧
      findList key groups.flatten = none) ∨
    ∃ p ∈ placed ri 0 groups,
      ReadContext.lastNotAbove (indexFrom ri 0 groups) key = some (indexEntryOf ri p.1 p.2) ∧
      findList key groups.flatten = findList key p.2 := by
  set after : ℕ → Bool :=
    fun i => ((indexFrom ri 0 groups)[i]?).any (fun e => key < e.firstKey) with hdef
  have hlen : (indexFrom ri 0 groups).length = groups.length := by
    rw [indexFrom, List.length_map, length_placed]
  have hafter : ∀ i g, groups[i]? = some g → after i = decide (key < firstKeyOf g) := by
    intro i g hg
    have hkey := getElem?_indexFrom ri groups i
    rw [hg, Option.map_some, Option.map_eq_some_iff] at hkey
    obtain ⟨e, he, hek⟩ := hkey
    simp only [hdef, he, Option.any_some, hek]
  have hmono : ∀ i j, i ≤ j → j < (indexFrom ri 0 groups).length → after i = true →
      after j = true := by
    intro i j hij hj hi
    have hgi := List.getElem?_eq_getElem (l := groups) (i := i) (by omega)
    have hgj := List.getElem?_eq_getElem (l := groups) (i := j) (by omega)
    rw [hafter i _ hgi, decide_eq_true_eq] at hi
    rw [hafter j _ hgj, decide_eq_true_eq]
    exact hi.trans_le (firstKey_le_firstKey hne hsorted hgi hgj hij)
  obtain ⟨hle, hlow, hhigh⟩ := upperBound_spec hmono
  obtain ⟨hrows, hcross⟩ := sorted_groups hsorted
  have habove : ∀ i, upperBound after (indexFrom ri 0 groups).length ≤ i → ∀ g,
      groups[i]? = some g → ∀ e ∈ g, key < e.1 := by
    intro i hi g hg e he
    have hil := (List.getElem?_eq_some_iff.mp hg).1
    have htrue := hhigh i hi (by omega)
    rw [hafter i g hg, decide_eq_true_eq] at htrue
    exact htrue.trans_le (firstKeyOf_le (hrows g (List.mem_of_getElem? hg)) e he)
  unfold ReadContext.lastNotAbove
  rcases hu : upperBound after (indexFrom ri 0 groups).length with _ | i
  · refine .inl ⟨rfl, findList_of_lt (fun e he => ?_)⟩
    obtain ⟨g, hg, heg⟩ := List.mem_flatten.mp he
    obtain ⟨i, hi⟩ := List.getElem?_of_mem hg
    exact habove i (by omega) g hi e heg
  · obtain ⟨p, hplaced⟩ : ∃ p, (placed ri 0 groups)[i]? = some p :=
      ⟨_, List.getElem?_eq_getElem (by rw [length_placed]; omega)⟩
    obtain ⟨front, back, hsplit, hfront⟩ := split_of_getElem? hplaced
    have hgroups : groups = front.map Prod.snd ++ p.2 :: back.map Prod.snd := by
      rw [← map_snd_placed ri 0 groups, hsplit, List.map_append, List.map_cons]
    have hgi : groups[i]? = some p.2 := by
      rw [← map_snd_placed ri 0 groups, List.getElem?_map, hplaced]
      rfl
    have hfirst : firstKeyOf p.2 ≤ key := by
      have hfalse := hlow i (by omega)
      rw [hafter i _ hgi, decide_eq_false_iff_not] at hfalse
      exact not_lt.mp hfalse
    refine .inr ⟨p, List.mem_of_getElem? hplaced, ?_, ?_⟩
    · simp only [indexFrom, List.getElem?_map, hplaced, Option.map_some]
    · have hbefore : ∀ e ∈ (front.map Prod.snd).flatten, e.1 < key := by
        intro e he
        obtain ⟨g, hg, heg⟩ := List.mem_flatten.mp he
        obtain ⟨x, hx, hxk⟩ := firstKeyOf_mem (hne p.2 (List.mem_of_getElem? hgi))
        rw [hgroups] at hcross
        have hlt := (List.pairwise_append.mp hcross).2.2 g hg p.2 List.mem_cons_self e heg x hx
        exact lt_of_lt_of_le (hxk ▸ hlt) hfirst
      have hbehind : ∀ e ∈ (back.map Prod.snd).flatten, key < e.1 := by
        intro e he
        obtain ⟨g, hg, heg⟩ := List.mem_flatten.mp he
        obtain ⟨k, hk⟩ := List.getElem?_of_mem hg
        refine habove (i + 1 + k) (by omega) g ?_ e heg
        rw [hgroups, List.getElem?_append_right (by rw [List.length_map, hfront]; omega),
          List.length_map, hfront, show i + 1 + k - i = k + 1 by omega, List.getElem?_cons_succ]
        exact hk
      conv_lhs => rw [hgroups]
      rw [List.flatten_append, List.flatten_cons, findList_skip hbefore, findList_cut hbehind]

end

end Sst
end LsmKv
