import LsmKv.IndexWalk

/-!
# What verification finds

A file that `verify_sstable` judges "OK" has readable sections and blocks under the right
checksums, and nothing more; the other two parsers start from that.
-/

namespace LsmKv
namespace Sst

/-- All the verifier has looked at. -/
structure Verified (file : Bytes) (index : List IndexEntry) : Prop where
  long : kFooterSize ≤ file.length
  seekable : file.length - kFooterSize < 2 ^ 63
  magic : (footerOf file).magic = kMagic
  version : (footerOf file).version = kVersion
  inRange : (footerOf file).outOfRange file.length 4 = false
  readIndex : ∀ short, readRange file (footerOf file).indexOff (footerOf file).indexSize short =
    .ok (indexOf file)
  crcIndex : crcMatches (indexOf file) (footerOf file).indexSize = .ok true
  readFilter : ∀ short, readRange file (footerOf file).filterOff (footerOf file).filterSize short =
    .ok (filterOf file)
  crcFilter : crcMatches (filterOf file) (footerOf file).filterSize = .ok true
  indexes : Indexes file index
  blocks : ∀ x ∈ index, 4 ≤ x.size ∧
    (∀ short, readRange file x.offset x.size short = .ok (blockOf file x)) ∧
      crcMatches (blockOf file x) x.size = .ok true

/-! ## Verdicts -/

/-- The verifier ends early with a verdict other than "OK", or in a fault. -/
def Stop.Rejects : Stop → Prop
  | .verdict v => v ≠ "OK"
  | .fault _ => True

theorem append_ne_ok {s : String} (h : 2 < s.length) (t : String) : s ++ t ≠ "OK" := by
  intro he
  have hlen := congrArg String.length he
  rw [String.length_append] at hlen
  have hok : "OK".length = 2 := rfl
  omega

theorem rejects_stop_of {α : Type} (r : Except Fault α) : ErrorsIn Stop.Rejects (Stop.of r) := by
  cases r with
  | error f => exact errorsIn_error trivial
  | ok a => exact errorsIn_ok a

theorem rejects_verifyRead (file : Bytes) (off n : ℕ) {v : String} (hv : v ≠ "OK") :
    ErrorsIn Stop.Rejects (verifyRead file off n v) :=
  ErrorsIn.ite (fun _ => errorsIn_error trivial) (fun _ => errorsIn_demand (fun _ => hv))

theorem rejects_verifySection (file : Bytes) (off n : ℕ) {unreadable mismatch : String}
    (hu : unreadable ≠ "OK") (hm : mismatch ≠ "OK") :
    ErrorsIn Stop.Rejects (verifySection file off n unreadable mismatch) := by
  refine (rejects_verifyRead file off n hu).bind (fun block _ => ?_)
  refine (rejects_stop_of _).bind (fun sound _ => ?_)
  exact ErrorsIn.ite (fun _ => errorsIn_ok _) (fun _ => errorsIn_error hm)

theorem rejects_verifyFooter (file : Bytes) : ErrorsIn Stop.Rejects (verifyFooter file) := by
  refine ErrorsIn.ite (fun _ => errorsIn_error (by decide : "file too small for footer" ≠ "OK"))
    (fun _ => ?_)
  refine (rejects_verifyRead file _ _ (by decide)).bind (fun b _ => ?_)
  refine ErrorsIn.ite (fun _ => errorsIn_error (by decide : "bad footer magic" ≠ "OK"))
    (fun _ => ?_)
  refine ErrorsIn.ite (fun _ => errorsIn_error (by decide : "unsupported version" ≠ "OK"))
    (fun _ => ?_)
  exact ErrorsIn.ite
    (fun _ => errorsIn_error (by decide : "footer offsets out of range" ≠ "OK"))
    (fun _ => errorsIn_ok _)

theorem rejects_verifyStep (file index : Bytes) (index_off stop : ℕ) (u : Unit) (pos : ℕ) :
    ErrorsIn Stop.Rejects (verifyStep file index index_off stop u pos) := by
  have htruncated : "truncated index entry" ≠ "OK" := by decide
  refine ErrorsIn.ite (fun _ => errorsIn_error htruncated) (fun _ => ?_)
  refine (errorsIn_demand (fun _ => trivial)).bind (fun key_len _ => ?_)
  refine ErrorsIn.ite (fun _ => errorsIn_error htruncated) (fun _ => ?_)
  refine (errorsIn_demand (fun _ => trivial)).bind (fun block_off _ => ?_)
  refine (errorsIn_demand (fun _ => trivial)).bind (fun block_size _ => ?_)
  refine ErrorsIn.ite (fun _ => errorsIn_error (append_ne_ok (by decide) _)) (fun _ => ?_)
  refine (rejects_verifySection file _ _ (append_ne_ok (by decide) _)
    (append_ne_ok (by decide) _)).bind (fun _ _ => errorsIn_ok _)

theorem rejects_verifyFile (file : Bytes) : ErrorsIn Stop.Rejects (verifyFile file) := by
  refine (rejects_verifyFooter file).bind (fun f _ => ?_)
  refine (rejects_verifySection file _ _ (by decide) (by decide)).bind (fun index _ => ?_)
  refine (rejects_verifySection file _ _ (by decide) (by decide)).bind (fun _ _ => ?_)
  exact errorsIn_walk (fun u pos _ => rejects_verifyStep file index _ _ u pos) _ _ _

/-- No early verdict of the verifier reads "OK". -/
theorem verifySstable_eq_ok {file : Bytes} :
    verifySstable (some file) = .ok "OK" ↔ verifyFile file = .ok () := by
  constructor
  · intro h
    have hrejects := rejects_verifyFile file
    rcases hfile : verifyFile file with (v | f) | u
    · rw [verifySstable, hfile] at h
      exact absurd (Except.ok.inj h) (hrejects _ hfile)
    · rw [verifySstable, hfile] at h
      cases h
    · rfl
  · intro h
    rw [verifySstable, h]

/-! ## From the verdict to the file -/

theorem verifyRead_eq_ok {file b : Bytes} {off n : ℕ} {v : String}
    (h : verifyRead file off n v = .ok b) (hn : n ≠ 0) :
    b = (file.drop off).take n ∧ b.length = n ∧ off + n ≤ file.length ∧
      ∀ short, readRange file off n short = .ok b := by
  obtain ⟨hsmall, hdemand⟩ := ite_error_eq_ok h
  have hread := demand_eq_ok hdemand
  have hrange : ∀ short, readRange file off n short = .ok b := fun short => by
    rw [readRange, if_neg hsmall, hread, demand_some]
  obtain ⟨hlen, hzero | ⟨hle, heq⟩⟩ := readRange_eq_ok (hrange .outside)
  · exact absurd hzero hn
  · exact ⟨heq, hlen, hle, hrange⟩

theorem verifySection_eq_ok {file b : Bytes} {off n : ℕ} {unreadable mismatch : String}
    (h : verifySection file off n unreadable mismatch = .ok b) (hn : n ≠ 0) :
    b = (file.drop off).take n ∧ (∀ short, readRange file off n short = .ok b) ∧
      crcMatches b n = .ok true := by
  obtain ⟨block, hread, h⟩ := bind_eq_ok h
  obtain ⟨sound, hcrc, h⟩ := bind_eq_ok h
  obtain ⟨heq, -, -, hrange⟩ := verifyRead_eq_ok hread hn
  rcases hmatches : crcMatches block n with f | b'
  · rw [hmatches] at hcrc
    cases hcrc
  · rw [hmatches] at hcrc
    obtain rfl := Except.ok.inj hcrc
    cases b' with
    | false => cases h
    | true =>
      obtain rfl := Except.ok.inj h
      exact ⟨heq, hrange, hmatches⟩

theorem verifyFooter_eq_ok {file : Bytes} {f : Footer} (h : verifyFooter file = .ok f) :
    f = footerOf file ∧ kFooterSize ≤ file.length ∧ file.length - kFooterSize < 2 ^ 63 ∧
      f.magic = kMagic ∧ f.version = kVersion ∧ f.outOfRange file.length 4 = false := by
  obtain ⟨hlong, h⟩ := ite_error_eq_ok h
  rw [not_lt] at hlong
  obtain ⟨b, hread, h⟩ := bind_eq_ok h
  have hseek : file.length - kFooterSize < 2 ^ 63 := by
    by_contra hbig
    rw [verifyRead, if_neg (by decide), readFile, if_pos (not_lt.mp hbig)] at hread
    cases hread
  have hrange := (verifyRead_eq_ok hread (by decide)).2.2.2 .outside
  rw [readRange_footer .outside hlong hseek] at hrange
  obtain rfl := Except.ok.inj hrange
  obtain ⟨hmagic, h⟩ := ite_error_eq_ok h
  obtain ⟨hversion, h⟩ := ite_error_eq_ok h
  obtain ⟨hout, h⟩ := ite_error_eq_ok h
  obtain rfl := Except.ok.inj h
  exact ⟨rfl, hlong, hseek, not_not.mp hmagic, not_not.mp hversion, by simpa using hout⟩

theorem verifyBlock_eq_ok {file : Bytes} {index_off : ℕ} {u u' : Unit} {x : IndexEntry}
    (h : verifyBlock file index_off u x = .ok u') : 4 ≤ x.size ∧
      (∀ short, readRange file x.offset x.size short = .ok (blockOf file x)) ∧
        crcMatches (blockOf file x) x.size = .ok true := by
  obtain ⟨hrange, h⟩ := ite_error_eq_ok h
  simp only [Bool.or_eq_true, decide_eq_true_eq, not_or, not_lt] at hrange
  obtain ⟨b, hsection, -⟩ := bind_eq_ok h
  have hsize := hrange.2
  obtain ⟨rfl, hread, hcrc⟩ := verifySection_eq_ok hsection (by omega)
  exact ⟨hsize, hread, hcrc⟩

/-- A turn of the verifier that succeeds has read an index entry. -/
theorem verifyStep_eq_ok {file index : Bytes} {index_off stop : ℕ} {u u' : Unit} {pos next : ℕ}
    (hstop : stop ≤ index.length)
    (h : verifyStep file index index_off stop u pos = .ok (u', next)) :
    pos < next ∧ ∃ x, IndexStands index stop pos x next := by
  have hstep := h
  obtain ⟨-, h⟩ := ite_error_eq_ok h
  obtain ⟨key_len, hlen, h⟩ := bind_eq_ok h
  obtain ⟨hwithin, h⟩ := ite_error_eq_ok h
  obtain ⟨x, -, hat⟩ := exists_indexAt hstop (demand_eq_ok hlen) (by omega)
  rw [hat.verifyStep] at hstep
  rcases hblock : verifyBlock file index_off u x with e | u''
  · rw [hblock] at hstep
    cases hstep
  · rw [hblock] at hstep
    obtain rfl := (Prod.mk.inj (Except.ok.inj hstep)).2
    exact ⟨hat.step_pos.2.2.2, x, hat, rfl⟩

theorem verified_of_verify {file : Bytes} (h : verifySstable (some file) = .ok "OK") :
    ∃ index, Verified file index := by
  have hfile := verifySstable_eq_ok.mp h
  obtain ⟨f, hfooter, hfile⟩ := bind_eq_ok hfile
  obtain ⟨rfl, hlong, hseek, hmagic, hversion, hrange⟩ := verifyFooter_eq_ok hfooter
  obtain ⟨-, -, hindexSize, hfilterSize⟩ := outOfRange_eq_false hrange
  obtain ⟨indexBytes, hindex, hfile⟩ := bind_eq_ok hfile
  obtain ⟨rfl, hreadIndex, hcrcIndex⟩ := verifySection_eq_ok hindex (by omega)
  obtain ⟨filterBytes, hfilter, hwalk⟩ := bind_eq_ok hfile
  obtain ⟨rfl, hreadFilter, hcrcFilter⟩ := verifySection_eq_ok hfilter (by omega)
  have hlength := (readRange_eq_ok (hreadIndex .outside)).1
  obtain ⟨index, hspells⟩ := exists_spells (fun u pos u' next _ hturn =>
    verifyStep_eq_ok (by omega) hturn) hwalk (by omega)
  have hindexes : Indexes file index := hspells
  have hfold := (hindexes.verify (footerOf file).indexOff).symm.trans hwalk
  have hall := (foldlM_eq_ok_iff
    (fun x => ∃ u, verifyBlock file (footerOf file).indexOff () x = .ok u)
    (fun _ _ _ => Iff.rfl) ()).mp ⟨(), hfold⟩
  refine ⟨index, hlong, hseek, hmagic, hversion, hrange, hreadIndex, hcrcIndex, hreadFilter,
    hcrcFilter, hindexes, fun x hx => ?_⟩
  obtain ⟨u, hu⟩ := hall x hx
  exact verifyBlock_eq_ok hu

end Sst
end LsmKv
