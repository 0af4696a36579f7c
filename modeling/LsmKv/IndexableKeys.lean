import LsmKv.Process

/-!
# Keys that fit the index

The index of a table gives a key a length field of four bytes. No key of a memtable outgrows it:
it comes from the log, which refuses longer ones, or from a scan, which has read its length.
-/

namespace LsmKv
open Sst (TableMeta Fault)
open OrderedMap WalFormat

/-- No key is longer than its length field can say. -/
def KeysFit (es : List Sst.Entry) : Prop := ∀ e ∈ es, e.1.length < 2 ^ 32

theorem keysFit_nil : KeysFit [] := by
  intro e he
  cases he

theorem KeysFit.snoc {es : List Sst.Entry} (h : KeysFit es) {e : Sst.Entry}
    (he : e.1.length < 2 ^ 32) : KeysFit (es ++ [e]) := by
  intro x hx
  rcases List.mem_append.mp hx with hx | hx
  · exact h x hx
  · obtain rfl := List.mem_singleton.mp hx
    exact he

theorem readEntry_key {base : ℕ} {block : Bytes} {entries_end p next : ℕ} {e : Sst.Entry}
    (h : Sst.readEntry base block entries_end p = .ok (e, next)) : e.1.length < 2 ^ 32 := by
  obtain ⟨-, h⟩ := Sst.ite_error_eq_ok h
  obtain ⟨klen, hklen, h⟩ := Sst.bind_eq_ok h
  obtain ⟨vlen, -, h⟩ := Sst.bind_eq_ok h
  obtain ⟨seqno, -, h⟩ := Sst.bind_eq_ok h
  obtain ⟨flags, -, h⟩ := Sst.bind_eq_ok h
  obtain ⟨-, h⟩ := Sst.ite_error_eq_ok h
  obtain ⟨key, hkey, h⟩ := Sst.bind_eq_ok h
  obtain ⟨value, -, h⟩ := Sst.bind_eq_ok h
  obtain ⟨rfl, -⟩ := Prod.mk.inj (Except.ok.inj h)
  have hlen := (readAt_eq_some (Sst.demand_eq_ok hkey)).2.2
  have hlt := (readLe_eq_some (Sst.demand_eq_ok hklen)).2
  show key.length < _
  omega

theorem KeysFit.scanBlock {es es' : List Sst.Entry} (hes : KeysFit es) {base : ℕ} {block : Bytes}
    (h : Sst.scanBlock base block es = .ok es') : KeysFit es' := by
  obtain ⟨count, -, h⟩ := Sst.bind_eq_ok h
  obtain ⟨-, h⟩ := Sst.ite_error_eq_ok h
  refine walk_keeps (fun s pos s' next hs hturn => ?_) hes h
  obtain ⟨⟨e, next'⟩, hread, hturn⟩ := Sst.bind_eq_ok hturn
  obtain ⟨rfl, -⟩ := Prod.mk.inj (Except.ok.inj hturn)
  exact hs.snoc (readEntry_key hread)

theorem KeysFit.scanStep {es es' : List Sst.Entry} (hes : KeysFit es) {file index : Bytes}
    {pos next : ℕ} (h : Sst.scanStep file index es pos = .ok (es', next)) : KeysFit es' := by
  obtain ⟨key_len, -, h⟩ := Sst.bind_eq_ok h
  obtain ⟨block_off, -, h⟩ := Sst.bind_eq_ok h
  obtain ⟨block_size, -, h⟩ := Sst.bind_eq_ok h
  obtain ⟨block, -, h⟩ := Sst.bind_eq_ok h
  dsimp only at h
  split at h
  · cases h
  obtain ⟨sound, -, h⟩ := Sst.bind_eq_ok h
  split at h
  · obtain ⟨entries, hscan, h⟩ := Sst.bind_eq_ok h
    obtain ⟨rfl, -⟩ := Prod.mk.inj (Except.ok.inj h)
    exact hes.scanBlock hscan
  · cases h

/-- What a scan returns are keys as their length fields say. -/
theorem keysFit_scanSstable {file : Option Bytes} {rows : List Sst.Entry}
    (h : Sst.scanSstable file = .ok rows) : KeysFit rows := by
  obtain ⟨info, -, h⟩ := Sst.bind_eq_ok h
  cases file with
  | none => cases h
  | some file =>
    obtain ⟨index, -, h⟩ := Sst.bind_eq_ok h
    exact walk_keeps (fun s pos s' next hs hturn => hs.scanStep hturn) keysFit_nil h

def Memtable.Fits (m : Memtable) : Prop := KeysFit m.map.entries

theorem fits_fresh (overhead : ℕ) : (Memtable.fresh overhead).Fits := keysFit_nil

theorem Memtable.Fits.insert {m : Memtable} (h : m.Fits) {key : Bytes} (row : MemEntry)
    (hkey : key.length < 2 ^ 32) : KeysFit (m.map.insert key row).entries := by
  intro e he
  have hfind := find?_eq_some_iff.mpr (show (e.1, e.2) ∈ _ from he)
  by_cases hk : key = e.1
  · exact hk ▸ hkey
  · rw [find?_insert_of_ne _ _ hk] at hfind
    exact h e (find?_eq_some_iff.mp hfind)

theorem Memtable.Fits.apply {m : Memtable} (h : m.Fits) {key : Bytes} (hkey : key.length < 2 ^ 32)
    (value : Bytes) (seqno : ℕ) (del : Bool) : (m.apply key value seqno del).Fits := by
  rw [Memtable.Fits, Memtable.map_apply]
  exact h.insert _ hkey

theorem Memtable.Fits.foldl {es : List Sst.Entry} (hes : KeysFit es) {m : Memtable} (h : m.Fits) :
    (es.foldl Memtable.applyEntry m).Fits := by
  induction es generalizing m with
  | nil => exact h
  | cons e es ih =>
    obtain ⟨he, hes⟩ := List.forall_mem_cons.mp hes
    exact ih hes (h.apply he _ _ _)

theorem Memtable.Fits.finalTable {m : Memtable} (h : m.Fits) (overhead : ℕ)
    (drops : MemEntry → Bool) : (Memtable.finalTable overhead drops m).Fits := by
  rw [Memtable.Fits, Memtable.map_finalTable]
  exact fun e he => h e (List.mem_of_mem_filter he)

theorem Process.fits_mergeRows (overhead : ℕ) {inputs : List (List Sst.Entry)}
    (h : ∀ rows ∈ inputs, KeysFit rows) : (Process.mergeRows overhead inputs).Fits := by
  rw [Process.mergeRows]
  have hfold : ∀ (l : List (List Sst.Entry)) (m : Memtable), (∀ rows ∈ l, KeysFit rows) → m.Fits →
      (l.foldl (fun m rows => rows.foldl Memtable.applyEntry m) m).Fits := by
    intro l
    induction l with
    | nil => exact fun m _ hm => hm
    | cons rows l ih =>
      intro m hl hm
      obtain ⟨hrows, hl⟩ := List.forall_mem_cons.mp hl
      exact ih _ hl (hm.foldl hrows)
  exact hfold _ _ (fun rows hrows => h rows (List.mem_reverse.mp hrows)) (fits_fresh overhead)

theorem Process.keysFit_scanAll {files : OrderedMap ℕ Bytes} {ts : List TableMeta}
    {inputs : List (List Sst.Entry)} (h : Process.scanAll files ts = .ok inputs) :
    ∀ rows ∈ inputs, KeysFit rows := by
  induction ts generalizing inputs with
  | nil =>
    obtain rfl := Except.ok.inj h
    exact fun _ hrows => nomatch hrows
  | cons t ts ih =>
    rw [Process.scanAll] at h
    rcases hscan : Sst.scanSstable (files.find? t.id) with f | rows
    · rw [hscan] at h
      cases h
    rw [hscan] at h
    rcases hrest : Process.scanAll files ts with f | rest
    · rw [hrest] at h
      cases h
    rw [hrest] at h
    obtain rfl := Except.ok.inj h
    exact List.forall_mem_cons.mpr ⟨keysFit_scanSstable hscan, ih hrest⟩

theorem Process.fits_mergeInputs {p : Process} {live : List TableMeta} {ids : List ℕ} {now : ℕ}
    {final : Memtable} (h : p.mergeInputs live ids now = .ok final) : final.Fits := by
  rw [Process.mergeInputs] at h
  dsimp only at h
  split at h
  · cases h
  · rename_i rows hscan
    obtain rfl := Except.ok.inj h
    exact (Process.fits_mergeRows _ (Process.keysFit_scanAll hscan)).finalTable _ _

theorem Process.length_of_accepts {r : Record} (h : Process.accepts r = true) :
    r.key.length < 2 ^ 32 := by
  rw [Process.accepts, Wal.checkAppend] at h
  by_cases hkey : r.key = []
  · rw [hkey]
    decide
  by_cases hlong : kMaxPayload < r.key.length ∨ kMaxPayload < r.value.length
  · rw [if_neg (by decide), if_neg hkey, if_pos hlong] at h
    cases h
  · have hmax : kMaxPayload < 2 ^ 32 := by decide
    omega

end LsmKv
