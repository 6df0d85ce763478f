import Decompiler.Fault
import Decompiler.Slice
import Decompiler.Text.Fixed
import Decompiler.Text.Blank
/-!
# Values

Values of any kind, as someone who follows an analysis looks at them. Numbers of different kinds are
the same if they have the same exact value, and a truth value counts as one or zero. A table keeps
the order in which its keys were first put in.
-/

namespace Decompiler

/-- A value that can be shown. -/
inductive Value where
  | text (s : String)
  | number (n : Int)
  | truth (b : Bool)
  /-- A binary64 number, by its bit pattern. -/
  | real (bits : UInt64)
  /-- The absence of a value. -/
  | nothing
  | list (elements : List Value)
  | tuple (elements : List Value)
  | set (elements : List Value)
  | table (keys : List Value) (values : List Value)
  deriving Repr

namespace Value

/-! ## Sameness -/

/-- The exact value of a finite number, as a quotient. -/
def quotient? : Value → Option (Int × Nat)
  | number n => some (n, 1)
  | truth b => some (b.toInt, 1)
  | real bits =>
    (Text.magnitude? bits).map fun q => (if Text.isNegative bits then -(q.1 : Int) else q.1, q.2)
  | _ => none

/-- Whether two values are the same number. A value that is not a number at all is no number, also
not the same as itself. -/
def sameNumber (a b : Value) : Bool :=
  match a.quotient?, b.quotient? with
  | some (m, d), some (n, e) => m * e = n * d
  | none, none =>
    match a, b with
    | real x, real y => Text.isInfinite x && x = y
    | _, _ => false
  | _, _ => false

mutual

/-- Whether two values are the same. Sets and tables may have their parts in any order. -/
def same : Value → Value → Bool
  | text a, text b => a = b
  | nothing, nothing => true
  | list a, list b => a.length = b.length && ((tests a).zip b).all fun t => t.1 t.2
  | tuple a, tuple b => a.length = b.length && ((tests a).zip b).all fun t => t.1 t.2
  | set a, set b => a.length = b.length && (tests a).all b.any
  | table k v, table l w =>
    k.length = l.length &&
      ((tests k).zip (tests v)).all fun t => (l.zip w).any fun e => t.1 e.1 && t.2 e.2
  | a, b => sameNumber a b
  termination_by structural a => a

/-- For each value, whether another one is the same. -/
def tests : List Value → List (Value → Bool)
  | [] => []
  | a :: rest => (fun b => same a b) :: tests rest
  termination_by structural l => l

end

instance : BEq Value := ⟨same⟩

/-! ## Tables -/

/-- Puts an entry into a table. A key that is there keeps its place and gets the new value. -/
def enter (entries : List (Value × Value)) (key value : Value) : List (Value × Value) :=
  match entries with
  | [] => [(key, value)]
  | e :: rest => if e.1 == key then (e.1, value) :: rest else e :: enter rest key value

/-- The table that entries make one after the other. -/
def tableOf (entries : List (Value × Value)) : Value :=
  let kept := entries.foldl (fun t e => enter t e.1 e.2) []
  table (kept.map Prod.fst) (kept.map Prod.snd)

/-! ## Parts -/

/-- A whole number or a truth value as a number. -/
def integer? : Value → Option Int
  | number n => some n
  | truth b => some b.toInt
  | _ => none

/-- The parts of a value one after the other: characters, elements or keys. -/
def parts? : Value → Option (List Value)
  | text s => some (s.toList.map fun c => text (String.singleton c))
  | list l => some l
  | tuple l => some l
  | set l => some l
  | table ks _ => some ks
  | _ => none

/-- The parts of a value that has places for them. -/
def row? : Value → Option (List Value)
  | text s => (text s).parts?
  | list l => some l
  | tuple l => some l
  | _ => none

/-- The part at a place, which is counted from the end if it is negative. -/
def partAt (v place : Value) : Except Fault Value :=
  match v.row?, place.integer? with
  | some l, some k =>
    match position? l k with
    | some w => .ok w
    | none => .error .outOfRange
  | _, _ => .error .wrongKind

/-- The first place of a text in another, from a place on, or `-1`. -/
def textPlace (s part : String) (start : Int) : Int :=
  let cs := s.toList
  if cs.length < start then -1
  else
    let skipped := sliceBound cs.length start
    match Text.placeIn? part.toList (cs.drop skipped) with
    | some k => ((skipped + k : Nat) : Int)
    | none => -1

/-- The first place of an element or a part of a text, from a place on, or `-1`. -/
def placeOf (v part start : Value) : Except Fault Int :=
  match v, part, start with
  | list l, _, _ =>
    match start.integer? with
    | some k => .ok (indexFrom l part k)
    | none => .error .wrongKind
  | text s, text t, nothing => .ok (textPlace s t 0)
  | text s, text t, _ =>
    match start.integer? with
    | some k => .ok (textPlace s t k)
    | none => .error .wrongKind
  | text _, _, _ => .error .wrongKind
  | _, _, _ => .error .noPlaces

end Value

end Decompiler
