import LsmKv.SstAgreement
import LsmKv.TableMetadata

/-!
# Walking an index of any content

The four walks over the entries of an index block, each as the fold of what it does with one
entry, and what is known of a file that `verify_sstable` finds in order.
-/

namespace LsmKv
namespace Sst

/-- The bytes the footer names as the index block. -/
def indexOf (file : Bytes) : Bytes :=
  (file.drop (footerOf file).indexOff).take (footerOf file).indexSize

/-- The bytes an index entry leads to. -/
def blockOf (file : Bytes) (x : IndexEntry) : Bytes := (file.drop x.offset).take x.size

def IndexStands (block : Bytes) (stop pos : ℕ) (x : IndexEntry) (next : ℕ) : Prop :=
  IndexAt block stop pos x ∧ next = pos + indexEntryLen x

/-- The index of the file is the list of these entries. -/
def Indexes (file : Bytes) (index : List IndexEntry) : Prop :=
  Spells (IndexStands (indexOf file) ((footerOf file).indexSize - 4))
    ((footerOf file).indexSize - 4) 0 index

theorem IndexStands.unique {block : Bytes} {stop pos next next' : ℕ} {x x' : IndexEntry}
    (h : IndexStands block stop pos x next) (h' : IndexStands block stop pos x' next') :
    x = x' ∧ next = next' := by
  obtain ⟨hat, rfl⟩ := h
  obtain ⟨hat', rfl⟩ := h'
  obtain ⟨key, offset, size⟩ := x
  obtain ⟨key', offset', size'⟩ := x'
  obtain ⟨hlen, hkey, hoffset, hsize, -⟩ := hat
  obtain ⟨hlen', hkey', hoffset', hsize', -⟩ := hat'
  dsimp only at hlen hkey hoffset hsize hlen' hkey' hoffset' hsize'
  have hkeys : key.length = key'.length := Option.some.inj (hlen.symm.trans hlen')
  rw [← hkeys] at hkey' hoffset' hsize'
  obtain rfl := Option.some.inj (hkey.symm.trans hkey')
  obtain rfl := Option.some.inj (hoffset.symm.trans hoffset')
  obtain rfl := Option.some.inj (hsize.symm.trans hsize')
  exact ⟨rfl, rfl⟩

theorem Indexes.unique {file : Bytes} {xs ys : List IndexEntry} (h : Indexes file xs)
    (h' : Indexes file ys) : xs = ys :=
  Spells.unique (fun _ _ _ _ _ hat hat' => hat.unique hat') h h'

/-- Where the length of the key and what follows it fit, an index entry stands. -/
theorem exists_indexAt {block : Bytes} {stop pos key_len : ℕ} (hstop : stop ≤ block.length)
    (hlen : readLe block pos 4 = some key_len) (hwithin : pos + 4 + key_len + 12 ≤ stop) :
    ∃ x, x.firstKey.length = key_len ∧ IndexAt block stop pos x := by
  have hkey : readAt block (pos + 4) key_len = some _ := readAt_of_le (by omega)
  have hlength := (readAt_eq_some hkey).2.2
  refine ⟨⟨(block.drop (pos + 4)).take key_len,
    leNat ((block.drop (pos + 4 + key_len)).take 8),
    leNat ((block.drop (pos + 4 + key_len + 8)).take 4)⟩, hlength, ?_⟩
  constructor
  · rw [hlength]
    exact hlen
  · rw [hlength]
    exact hkey
  · rw [hlength]
    exact readLe_of_le (by omega)
  · rw [hlength]
    exact readLe_of_le (by omega)
  · rw [indexEntryLen, hlength]
    omega

/-! ## What each walk does with an entry -/

def verifyBlock (file : Bytes) (index_off : ℕ) (_ : Unit) (x : IndexEntry) : Except Stop Unit :=
  if index_off < (x.offset + x.size) % 2 ^ 64 || x.size < 4 then
    .error (.verdict ("data block offset out of range at file offset " ++ toString x.offset))
  else do
    let _ ← verifySection file x.offset x.size
      ("cannot read data block at offset " ++ toString x.offset)
      ("data block checksum mismatch at offset " ++ toString x.offset)
    .ok ()

def scanVisit (file : Bytes) (entries : List Entry) (x : IndexEntry) :
    Except Fault (List Entry) := do
  let block ← readRange file x.offset x.size (corrupt x.offset "short read on data block")
  let sound ← if x.size < 12 then .ok false else crcMatches block x.size
  if sound then scanBlock x.offset block entries
  else .error (corrupt x.offset "data block checksum mismatch")

section
variable {block : Bytes} {stop pos : ℕ} {x : IndexEntry}

theorem IndexAt.step_pos (h : IndexAt block stop pos x) :
    ¬stop < pos + 4 ∧ ¬stop < pos + 4 + x.firstKey.length + 12 ∧
      pos + 4 + x.firstKey.length + 12 = pos + indexEntryLen x ∧ pos < pos + indexEntryLen x := by
  have hwithin := h.within
  simp only [indexEntryLen] at hwithin ⊢
  omega

theorem IndexAt.verifyStep (h : IndexAt block stop pos x) (file : Bytes) (index_off : ℕ)
    (u : Unit) : Sst.verifyStep file block index_off stop u pos =
      (verifyBlock file index_off u x).map (fun u => (u, pos + indexEntryLen x)) := by
  obtain ⟨h₁, h₂, hnext, -⟩ := h.step_pos
  rw [Sst.verifyStep, if_neg h₁, h.keyLen, demand_some, ok_bind, if_neg h₂, h.offset, demand_some,
    ok_bind, h.blockSize, demand_some, ok_bind, verifyBlock, hnext]
  split
  · rfl
  · rcases verifySection file x.offset x.size _ _ with e | b <;> rfl

end

/-! ## Walks over a whole index -/

section
variable {file : Bytes} {index : List IndexEntry}

theorem Indexes.walk {ε σ : Type} {step : σ → ℕ → Except ε (σ × ℕ)}
    (h : Indexes file index) (visit : σ → IndexEntry → Except ε σ)
    (hstep : ∀ s pos x, IndexAt (indexOf file) ((footerOf file).indexSize - 4) pos x →
      step s pos = (visit s x).map (fun s => (s, pos + indexEntryLen x))) (s : σ) :
    LsmKv.walk step ((footerOf file).indexSize - 4) (footerOf file).indexSize s 0 =
      index.foldlM visit s := by
  refine Spells.walk visit (fun s pos x next _ hat => ?_) h (by omega) s
  obtain ⟨hat, rfl⟩ := hat
  exact ⟨hat.step_pos.2.2.2, hstep s pos x hat⟩

/-- The verifier's walk over all entries. -/
theorem Indexes.verify (h : Indexes file index) (index_off : ℕ) :
    LsmKv.walk (verifyStep file (indexOf file) index_off ((footerOf file).indexSize - 4))
        ((footerOf file).indexSize - 4) (footerOf file).indexSize () 0 =
      index.foldlM (verifyBlock file index_off) () :=
  h.walk _ (fun s _ _ hat => hat.verifyStep file index_off s) ()

/-! ## The two walks in 32 bits -/

/-- The inspector finds the size of a block after `pos`, and goes on at `next`. -/
def InspectStands (block : Bytes) (stop pos size next : ℕ) : Prop :=
  ∃ key_len, readLe block pos 4 = some key_len ∧ pos + 4 + key_len + 12 ≤ stop ∧
    readLe block (pos + 4 + (key_len + 8) % 2 ^ 32) 4 = some size ∧
    next = pos + 4 + (key_len + 8) % 2 ^ 32 + 4

/-- The scanner finds the offset and the size of a block after `pos`, and goes on at `next`. -/
def ScanStands (block : Bytes) (pos : ℕ) (x : ℕ × ℕ) (next : ℕ) : Prop :=
  ∃ key_len, readLe block pos 4 = some key_len ∧
    readLe block (pos + (4 + key_len) % 2 ^ 32) 8 = some x.1 ∧
    readLe block (pos + (4 + key_len) % 2 ^ 32 + 8) 4 = some x.2 ∧
    next = pos + (4 + key_len) % 2 ^ 32 + 12

/-- The sizes of the blocks, as the inspector comes upon them. -/
def Inspects (file : Bytes) (sizes : List ℕ) : Prop :=
  Spells (InspectStands (indexOf file) ((footerOf file).indexSize - 4))
    ((footerOf file).indexSize - 4) 0 sizes

/-- The blocks, as the scanner comes upon them. -/
def Scans (file : Bytes) (blocks : List (ℕ × ℕ)) : Prop :=
  Spells (ScanStands (indexOf file)) ((footerOf file).indexSize - 4) 0 blocks

theorem IndexStands.inspectStands {block : Bytes} {stop pos next : ℕ} {x : IndexEntry}
    (h : IndexStands block stop pos x next) (hshort : x.Short) :
    InspectStands block stop pos x.size next := by
  obtain ⟨hat, rfl⟩ := h
  have hwithin := hat.within
  refine ⟨x.firstKey.length, hat.keyLen, ?_, ?_, ?_⟩
  · rw [indexEntryLen] at hwithin
    omega
  · rw [Nat.mod_eq_of_lt hshort, ← Nat.add_assoc]
    exact hat.blockSize
  · rw [Nat.mod_eq_of_lt hshort, indexEntryLen]
    omega

theorem IndexStands.scanStands {block : Bytes} {stop pos next : ℕ} {x : IndexEntry}
    (h : IndexStands block stop pos x next) (hshort : x.Short) :
    ScanStands block pos (x.offset, x.size) next := by
  obtain ⟨hat, rfl⟩ := h
  have hlen : 4 + x.firstKey.length < 2 ^ 32 := by
    rw [IndexEntry.Short] at hshort
    omega
  refine ⟨x.firstKey.length, hat.keyLen, ?_, ?_, ?_⟩
  · rw [Nat.mod_eq_of_lt hlen, ← Nat.add_assoc]
    exact hat.offset
  · rw [Nat.mod_eq_of_lt hlen, ← Nat.add_assoc]
    exact hat.blockSize
  · rw [Nat.mod_eq_of_lt hlen, indexEntryLen]
    omega

/-- Where no key is long, both walks go along the entries. -/
theorem Indexes.inspects (h : Indexes file index) (hshort : ∀ x ∈ index, x.Short) :
    Inspects file (index.map (·.size)) :=
  Spells.map _ h (fun _ _ x hx hat => hat.inspectStands (hshort x hx))

theorem Indexes.scans (h : Indexes file index) (hshort : ∀ x ∈ index, x.Short) :
    Scans file (index.map (fun x => (x.offset, x.size))) :=
  Spells.map _ h (fun _ _ x hx hat => hat.scanStands (hshort x hx))

theorem InspectStands.step {block : Bytes} {stop pos size next : ℕ}
    (h : InspectStands block stop pos size next) (info : SstInfo) :
    inspectStep block stop info pos = .ok (info.countBlock size, next) := by
  obtain ⟨key_len, hlen, hwithin, hsize, rfl⟩ := h
  rw [inspectStep, if_neg (by omega), hlen, demand_some, ok_bind, if_neg (by omega)]
  simp only [hsize, demand_some, ok_bind]

theorem ScanStands.step {file block : Bytes} {pos next : ℕ} {x : ℕ × ℕ}
    (h : ScanStands block pos x next) (entries : List Entry) :
    scanStep file block entries pos =
      (scanVisit file entries ⟨[], x.1, x.2⟩).map (fun entries => (entries, next)) := by
  obtain ⟨key_len, hlen, hoff, hsize, rfl⟩ := h
  simp only [scanStep, hlen, hoff, hsize, demand_some, ok_bind, scanVisit]
  rcases readRange file x.1 x.2 _ with e | b
  · rfl
  simp only [ok_bind]
  by_cases hsmall : x.2 < 12
  · simp only [if_pos hsmall]
    rfl
  simp only [if_neg hsmall]
  rcases crcMatches b x.2 with e | sound
  · rfl
  cases sound with
  | false => rfl
  | true =>
    simp only [ok_bind, if_true]
    rcases scanBlock x.1 b entries with e | es <;> rfl

theorem InspectStands.lt {block : Bytes} {stop pos size next : ℕ}
    (h : InspectStands block stop pos size next) : pos < next := by
  obtain ⟨key_len, -, -, -, rfl⟩ := h
  omega

theorem ScanStands.lt {block : Bytes} {pos next : ℕ} {x : ℕ × ℕ}
    (h : ScanStands block pos x next) : pos < next := by
  obtain ⟨key_len, -, -, -, rfl⟩ := h
  omega

theorem Inspects.walk {sizes : List ℕ} (h : Inspects file sizes) (info : SstInfo) :
    LsmKv.walk (inspectStep (indexOf file) ((footerOf file).indexSize - 4))
        ((footerOf file).indexSize - 4) (footerOf file).indexSize info 0 =
      .ok (sizes.foldl SstInfo.countBlock info) := by
  rw [Spells.walk (fun info size => .ok (SstInfo.countBlock info size))
    (fun s pos size next _ hat => ⟨hat.lt, hat.step s⟩) h (by omega)]
  exact List.foldlM_pure

theorem Scans.walk {blocks : List (ℕ × ℕ)} (h : Scans file blocks) (entries : List Entry) :
    LsmKv.walk (scanStep file (indexOf file)) ((footerOf file).indexSize - 4)
        (footerOf file).indexSize entries 0 =
      blocks.foldlM (fun es x => scanVisit file es ⟨[], x.1, x.2⟩) entries :=
  Spells.walk _ (fun s pos x next _ hat => ⟨hat.lt, hat.step s⟩) h (by omega) entries

/-- The inspector gets to the end of the index only by entries it finds. -/
theorem exists_inspects {info info' : SstInfo}
    (h : LsmKv.walk (inspectStep (indexOf file) ((footerOf file).indexSize - 4))
      ((footerOf file).indexSize - 4) (footerOf file).indexSize info 0 = .ok info') :
    ∃ sizes, Inspects file sizes := by
  refine exists_spells (fun s pos s' next _ hturn => ?_) h (by omega)
  obtain ⟨-, hturn⟩ := ite_error_eq_ok hturn
  obtain ⟨key_len, hlen, hturn⟩ := bind_eq_ok hturn
  obtain ⟨hwithin, hturn⟩ := ite_error_eq_ok hturn
  obtain ⟨size, hsize, hturn⟩ := bind_eq_ok hturn
  obtain ⟨-, rfl⟩ := Prod.mk.inj (Except.ok.inj hturn)
  have hat : InspectStands (indexOf file) ((footerOf file).indexSize - 4) pos size _ :=
    ⟨key_len, demand_eq_ok hlen, not_lt.mp hwithin, demand_eq_ok hsize, rfl⟩
  exact ⟨hat.lt, size, hat⟩

theorem exists_scans {es es' : List Entry}
    (h : LsmKv.walk (scanStep file (indexOf file)) ((footerOf file).indexSize - 4)
      (footerOf file).indexSize es 0 = .ok es') : ∃ blocks, Scans file blocks := by
  refine exists_spells (fun s pos s' next _ hturn => ?_) h (by omega)
  obtain ⟨key_len, hlen, hturn⟩ := bind_eq_ok hturn
  obtain ⟨off, hoff, hturn⟩ := bind_eq_ok hturn
  obtain ⟨size, hsize, hturn⟩ := bind_eq_ok hturn
  have hat : ScanStands (indexOf file) pos (off, size) (pos + (4 + key_len) % 2 ^ 32 + 12) :=
    ⟨key_len, demand_eq_ok hlen, demand_eq_ok hoff, demand_eq_ok hsize, rfl⟩
  obtain ⟨block, -, hturn⟩ := bind_eq_ok hturn
  by_cases hsmall : size < 12
  · simp only [if_pos hsmall] at hturn
    cases hturn
  simp only [if_neg hsmall] at hturn
  obtain ⟨sound, -, hturn⟩ := bind_eq_ok hturn
  cases sound with
  | false => cases hturn
  | true =>
    rw [if_pos rfl] at hturn
    obtain ⟨es₁, -, hturn⟩ := bind_eq_ok hturn
    obtain ⟨-, rfl⟩ := Prod.mk.inj (Except.ok.inj hturn)
    exact ⟨hat.lt, _, hat⟩

theorem Indexes.scan (h : Indexes file index) (hshort : ∀ x ∈ index, x.Short)
    (entries : List Entry) :
    LsmKv.walk (scanStep file (indexOf file)) ((footerOf file).indexSize - 4)
        (footerOf file).indexSize entries 0 = index.foldlM (scanVisit file) entries := by
  rw [(h.scans hshort).walk, List.foldlM_map]
  rfl

end

end Sst
end LsmKv
