import LsmKv.TableReader

/-!
# Reads that stay inside their buffers

A computation of a reader is contained when all it can end in besides a result is
`CorruptionDetected`. Checked reads are, as soon as the range they ask for was tested.
-/

namespace LsmKv

/-! ## Fields and slices -/

theorem readAt_of_le {b : Bytes} {off n : ℕ} (h : off + n ≤ b.length) :
    readAt b off n = some ((b.drop off).take n) := if_pos h

theorem readAt_eq_some {b s : Bytes} {off n : ℕ} (h : readAt b off n = some s) :
    off + n ≤ b.length ∧ s = (b.drop off).take n ∧ s.length = n := by
  unfold readAt at h
  split at h
  · rename_i hle
    obtain rfl := Option.some.inj h
    refine ⟨hle, rfl, ?_⟩
    rw [List.length_take, List.length_drop]
    omega
  · cases h

theorem readLe_of_le {b : Bytes} {off n : ℕ} (h : off + n ≤ b.length) :
    readLe b off n = some (leNat ((b.drop off).take n)) := by
  rw [readLe, readAt_of_le h, Option.map_some]

theorem readLe_eq_some {b : Bytes} {off n v : ℕ} (h : readLe b off n = some v) :
    off + n ≤ b.length ∧ v < 256 ^ n := by
  obtain ⟨s, hs, rfl⟩ := Option.map_eq_some_iff.mp h
  obtain ⟨hle, -, hlen⟩ := readAt_eq_some hs
  exact ⟨hle, hlen ▸ leNat_lt s⟩

namespace Sst

/-! ## The errors of a computation -/

section
variable {ε α β σ : Type} {P : ε → Prop}

/-- Whatever the computation fails with satisfies `P`. -/
def ErrorsIn (P : ε → Prop) (r : Except ε α) : Prop := ∀ e, r = .error e → P e

theorem errorsIn_ok (a : α) : ErrorsIn P (.ok a : Except ε α) := nofun

theorem errorsIn_error {e : ε} (h : P e) : ErrorsIn P (.error e : Except ε α) := by
  rintro e' he
  obtain rfl := Except.error.inj he
  exact h

theorem ErrorsIn.bind {r : Except ε α} {f : α → Except ε β} (h : ErrorsIn P r)
    (hf : ∀ a, r = .ok a → ErrorsIn P (f a)) : ErrorsIn P (r >>= f) := by
  cases r with
  | error e => exact errorsIn_error (h e rfl)
  | ok a => exact hf a rfl

theorem ErrorsIn.ite {p : Prop} [Decidable p] {r s : Except ε α} (hr : p → ErrorsIn P r)
    (hs : ¬p → ErrorsIn P s) : ErrorsIn P (if p then r else s) := by
  split
  · rename_i h
    exact hr h
  · rename_i h
    exact hs h

theorem errorsIn_demand {o : Option α} {e : ε} (h : o = none → P e) :
    ErrorsIn P (demand e o) := by
  cases o with
  | none => exact errorsIn_error (h rfl)
  | some a => exact errorsIn_ok a

/-- A walk fails only as its turns do. -/
theorem errorsIn_walk {step : σ → ℕ → Except ε (σ × ℕ)} {stop : ℕ}
    (hstep : ∀ s pos, pos < stop → ErrorsIn P (step s pos)) (fuel : ℕ) (s : σ) (pos : ℕ) :
    ErrorsIn P (walk step stop fuel s pos) := by
  induction fuel generalizing s pos with
  | zero => exact errorsIn_ok s
  | succ fuel ih =>
    rw [walk]
    split
    · rename_i hpos
      have hturn := hstep s pos hpos
      split
      · rename_i e he
        exact errorsIn_error (hturn e he)
      · exact ih _ _
    · exact errorsIn_ok s

theorem errorsIn_foldlM {visit : σ → β → Except ε σ} {xs : List β}
    (hvisit : ∀ s, ∀ x ∈ xs, ErrorsIn P (visit s x)) (s : σ) :
    ErrorsIn P (xs.foldlM visit s) := by
  induction xs generalizing s with
  | nil => exact errorsIn_ok s
  | cons x xs ih =>
    rw [List.foldlM_cons]
    exact (hvisit s x List.mem_cons_self).bind
      (fun s' _ => ih (fun s y hy => hvisit s y (List.mem_cons_of_mem _ hy)) s')

theorem bind_eq_ok {r : Except ε α} {f : α → Except ε β} {b : β} (h : (r >>= f) = .ok b) :
    ∃ a, r = .ok a ∧ f a = .ok b := by
  cases r with
  | error e => cases h
  | ok a => exact ⟨a, rfl, h⟩

theorem demand_eq_ok {e : ε} {o : Option α} {a : α} (h : demand e o = .ok a) : o = some a := by
  cases o with
  | none => cases h
  | some b => rw [Except.ok.inj h]

theorem ite_error_eq_ok {p : Prop} [Decidable p] {e : ε} {r : Except ε α} {a : α}
    (h : (if p then .error e else r) = .ok a) : ¬p ∧ r = .ok a := by
  split at h
  · cases h
  · rename_i hp
    exact ⟨hp, h⟩

end

/-- The exception is `CorruptionDetected`. -/
def Fault.IsCorruption : Fault → Prop
  | .thrown e => e.code = .corruptionDetected
  | _ => False

theorem isCorruption_corrupt (off : ℕ) (what : String) : (corrupt off what).IsCorruption := rfl

/-- The computation ends in a result or in `CorruptionDetected`. -/
abbrev Contained {α : Type} (r : Except Fault α) : Prop := ErrorsIn Fault.IsCorruption r

theorem not_contained_outside {α : Type} : ¬Contained (.error .outside : Except Fault α) :=
  fun h => h .outside rfl

theorem contained_readLe {b : Bytes} {off n : ℕ} (h : off + n ≤ b.length) :
    Contained (demand .outside (readLe b off n)) := by
  rw [readLe_of_le h]
  exact errorsIn_ok _

theorem contained_readAt {b : Bytes} {off n : ℕ} (h : off + n ≤ b.length) :
    Contained (demand .outside (readAt b off n)) := by
  rw [readAt_of_le h]
  exact errorsIn_ok _

/-! ## The reads of the format -/

theorem readRange_eq_ok {file b : Bytes} {off n : ℕ} {short : Fault}
    (h : readRange file off n short = .ok b) :
    b.length = n ∧ (n = 0 ∨ off + n ≤ file.length ∧ b = (file.drop off).take n) := by
  unfold readRange at h
  split at h
  · cases h
  have hread := demand_eq_ok h
  unfold readFile at hread
  split at hread
  · cases hread
  split at hread
  · rename_i hzero
    obtain rfl := Option.some.inj hread
    exact ⟨hzero.symm, .inl hzero⟩
  · obtain ⟨hle, heq, hlen⟩ := readAt_eq_some hread
    exact ⟨hlen, .inr ⟨hle, heq⟩⟩

theorem readRange_of_le {file : Bytes} {off n : ℕ} (short : Fault) (hoff : off < 2 ^ 63)
    (hn : n < 2 ^ 63) (hle : off + n ≤ file.length) :
    readRange file off n short = .ok ((file.drop off).take n) := by
  rw [readRange, if_neg (by omega), readFile, if_neg (by omega)]
  split
  · rename_i hzero
    rw [hzero, List.take_zero, demand_some]
  · rw [readAt_of_le hle, demand_some]

theorem contained_readRange {file : Bytes} {off n : ℕ} {short : Fault} (hn : n < 2 ^ 63)
    (hshort : short.IsCorruption) : Contained (readRange file off n short) := by
  rw [readRange, if_neg (by omega)]
  exact errorsIn_demand (fun _ => hshort)

/-- The checksum test of a block that is as long as it should be. -/
theorem crcMatches_eq {block : Bytes} {n : ℕ} (hlen : block.length = n) (hn : 4 ≤ n) :
    crcMatches block n =
      .ok (crc32 (block.take (n - 4)) == leNat ((block.drop (n - 4)).take 4)) := by
  rw [crcMatches, readAt_of_le (by omega), readLe_of_le (by omega)]
  rfl

theorem contained_readEntry {base : ℕ} {block : Bytes} {entries_end p : ℕ}
    (hend : entries_end ≤ block.length) : Contained (readEntry base block entries_end p) := by
  unfold readEntry
  refine ErrorsIn.ite (fun _ => errorsIn_error rfl) (fun hheader => ?_)
  simp only [kEntryHeader] at hheader
  have hflags : block[p + 16]? = some block[p + 16] := List.getElem?_eq_getElem (by omega)
  refine (contained_readLe (by omega)).bind (fun klen _ => ?_)
  refine (contained_readLe (by omega)).bind (fun vlen _ => ?_)
  refine (contained_readLe (by omega)).bind (fun seqno _ => ?_)
  rw [hflags, demand_some, ok_bind]
  refine ErrorsIn.ite (fun _ => errorsIn_error rfl) (fun hbody => ?_)
  simp only [kEntryHeader] at hbody ⊢
  refine (contained_readAt (by omega)).bind (fun key _ => ?_)
  refine (contained_readAt (by omega)).bind (fun value _ => ?_)
  exact errorsIn_ok _

end Sst
end LsmKv
