import LsmKv.Bytes

/-!
# JSON documents

Documents are values of the types the library tells apart. Its functions are a parameter: a document
is parsed as it was written, with null for the numbers that JSON has no text for, and a field of the
expected type is read as what it holds.
-/

namespace LsmKv

/-- The members of an object stand in the order of their names. -/
inductive Json where
  | null
  | bool (b : Bool)
  | nat (n : ℕ)
  | int (z : ℤ)
  | float (x : Double)
  | str (s : Bytes)
  | arr (vs : List Json)
  | obj (members : List (String × Json))

namespace Json

/-- The kinds of `json::exception`. -/
inductive Exception where
  | parseError | invalidIterator | typeError | outOfRange | otherError
  deriving DecidableEq

/-- What the library provides. -/
structure Library where
  dump : Json → Except Exception Bytes
  parse : Bytes → Except Exception Json
  «at» : Json → String → Except Exception Json
  getU64 : Json → Except Exception ℕ
  getU32 : Json → Except Exception ℕ
  getDouble : Json → Except Exception Double
  getStr : Json → Except Exception Bytes
  /-- the member of this name as a number, or the default where there is none -/
  valueU64 : Json → String → ℕ → Except Exception ℕ
  /-- what a loop over the document runs through -/
  elements : Json → List Json

/-- The order of names, character by character. -/
def precedes : List Char → List Char → Bool
  | _, [] => false
  | [], _ :: _ => true
  | a :: as, b :: bs => a.toNat < b.toNat || (a.toNat == b.toNat && precedes as bs)

/-- A document in the form the library keeps it in. -/
inductive Canonical : Json → Prop
  | null : Canonical .null
  | bool (b : Bool) : Canonical (.bool b)
  | nat {n : ℕ} (h : n < 2 ^ 64) : Canonical (.nat n)
  | int {z : ℤ} (hz : z < 0) (h : -2 ^ 63 ≤ z) : Canonical (.int z)
  | float (x : Double) : Canonical (.float x)
  | str (s : Bytes) : Canonical (.str s)
  | arr {vs : List Json} (h : ∀ v ∈ vs, Canonical v) : Canonical (.arr vs)
  | obj {members : List (String × Json)} (h : ∀ p ∈ members, Canonical p.2)
      (hsorted : members.Pairwise (fun a b => precedes a.1.toList b.1.toList = true)) :
    Canonical (.obj members)

mutual

/-- What the text of a document says: an infinity or a NaN is written as null. -/
def written : Json → Json
  | .float x => if x.isFinite then .float x else .null
  | .arr vs => .arr (writtenAll vs)
  | .obj members => .obj (writtenMembers members)
  | v => v

def writtenAll : List Json → List Json
  | [] => []
  | v :: vs => written v :: writtenAll vs

def writtenMembers : List (String × Json) → List (String × Json)
  | [] => []
  | (key, v) :: members => (key, written v) :: writtenMembers members

end

/-- What the library's documentation says of the calls made here. -/
structure Library.Documented (lib : Library) : Prop where
  parse_dump {v : Json} {b : Bytes} (hv : v.Canonical) (h : lib.dump v = .ok b) :
    lib.parse b = .ok v.written
  at_obj {members : List (String × Json)} {key : String} {v : Json}
    (h : members.lookup key = some v) : lib.at (.obj members) key = .ok v
  getU64_nat {n : ℕ} (h : n < 2 ^ 64) : lib.getU64 (.nat n) = .ok n
  getU32_nat {n : ℕ} (h : n < 2 ^ 32) : lib.getU32 (.nat n) = .ok n
  getDouble_float (x : Double) : lib.getDouble (.float x) = .ok x
  getDouble_null : lib.getDouble .null = .error .typeError
  getStr_str (s : Bytes) : lib.getStr (.str s) = .ok s
  valueU64_obj {members : List (String × Json)} {key : String} {v : Json} (default : ℕ)
    (h : members.lookup key = some v) : lib.valueU64 (.obj members) key default = lib.getU64 v
  elements_arr (vs : List Json) : lib.elements (.arr vs) = vs

end Json
end LsmKv
