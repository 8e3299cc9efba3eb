import TreeSketch.Decimal.Binary64
import TreeSketch.Text.Lowercase
import TreeSketch.Text.Quoted

/-!
# Settings as they are written

A settings file is a table of values, and tables may hold tables. `Setting.assign` puts a value at a key path
inside a setting, and `Setting.merge` lays one setting over another: tables are merged field by field and
anything else replaces what was there. Keys are compared in lower case, so they are kept in lower case.

A value remembers the file that it was read from. A table that several files may have contributed to has no
origin.
-/

namespace TreeSketch

/-- A single value. -/
inductive Scalar where
  | nil
  | boolean (value : Bool)
  | integer (value : Int)
  | float (value : Binary64)
  | string (value : String)
deriving Repr, DecidableEq

/-- A value with the file that it was read from, if it was read from one. -/
inductive Setting where
  | scalar (origin : Option String) (value : Scalar)
  | array (origin : Option String) (items : List Setting)
  | table (origin : Option String) (fields : List (String × Setting))
deriving Repr

/-- A single value that is given by itself stems from no file. -/
instance : Coe Scalar Setting :=
  ⟨Setting.scalar none⟩

/-- One step of a key path. -/
inductive KeyStep where
  /-- To the field of this name. -/
  | name (key : String)
  /-- To the item at this position; a negative position counts from the end. -/
  | index (position : Int)
deriving Repr, DecidableEq

namespace Scalar

/-- What a message calls the value. -/
def describe : Scalar → String
  | nil => "unit value"
  | boolean value => "boolean `" ++ toString value ++ "`"
  | integer value => "integer `" ++ toString value ++ "`"
  | float value =>
    let shown := value.display
    let point := if value.isFinite && !shown.toList.contains '.' then ".0" else ""
    "floating point `" ++ shown ++ point ++ "`"
  | string value => "string " ++ Text.quoted value

end Scalar

namespace Setting

/-- The value that stands for nothing. -/
def nil : Setting :=
  scalar none .nil

/-- A table without fields. -/
def emptyTable : Setting :=
  table none []

/-- The file that the value was read from. -/
def origin? : Setting → Option String
  | scalar origin _ | array origin _ | table origin _ => origin

/-- What a message calls the value. -/
def describe : Setting → String
  | scalar _ value => value.describe
  | array _ _ => "sequence"
  | table _ _ => "map"

/-- The field of a key. -/
def field? (key : String) : Setting → Option Setting
  | table _ fields => fields.lookup key
  | _ => none

/-- Puts a value into the field of a key, behind the other fields if there was none. -/
def setField (key : String) (value : Setting) :
    List (String × Setting) → List (String × Setting)
  | [] => [(key, value)]
  | (other, old) :: rest =>
    if other = key then (key, value) :: rest else (other, old) :: setField key value rest

/-- Puts a value into the field of a key of a setting, which becomes a table if it is none. -/
def putField (key : String) (value : Setting) : Setting → Setting
  | table origin fields => table origin (setField key value fields)
  | _ => table none [(key, value)]

mutual

/-- Lays a setting over the one that is there. -/
def merge (below : Option Setting) : Setting → Setting
  | table _ fields => mergeFields (below.getD emptyTable) fields
  | scalar origin value => scalar origin value
  | array origin items => array origin items

/-- Lays the fields of a table over a setting, which becomes a table if there are any. -/
def mergeFields (below : Setting) : List (String × Setting) → Setting
  | [] => below
  | (key, value) :: rest =>
    let lower := Text.lowercase key
    mergeFields (putField lower (merge (field? lower below) value) below) rest

end

/-- The items of an array; any other setting has none. -/
def items : Setting → List Setting
  | array _ items => items
  | _ => []

/-- The position that an index means among `size` items, if it does not lie before the first. -/
def resolveIndex (size : Nat) (position : Int) : Option Nat :=
  if 0 ≤ position then some position.toNat
  else if position.natAbs ≤ size then some (size - position.natAbs)
  else none

/-- Puts a value at the end of a key path. What stands on the way becomes a table or an array as the path
needs it, and arrays are filled up with nothing. A table at a last name is merged with what is there. -/
def assign (value : Setting) : List KeyStep → Setting → Setting
  | [], _ => value
  | [.name key], below =>
    let lower := Text.lowercase key
    putField lower (merge (field? lower below) value) below
  | .name key :: rest, below =>
    let lower := Text.lowercase key
    putField lower (assign value rest ((field? lower below).getD nil)) below
  | .index position :: rest, below =>
    let items := items below
    match resolveIndex items.length position with
    | none => below
    | some place =>
      let filled := items ++ List.replicate (place + 1 - items.length) nil
      let origin := match below with
        | array origin _ => origin
        | _ => none
      array origin (filled.set place (assign value rest ((filled[place]?).getD nil)))

end Setting

end TreeSketch
