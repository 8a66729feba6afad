import TensorFusion.Error
import TensorFusion.Json.Token
import TensorFusion.Value.Table

/-!
# Json — Reader

Values from tokens. The containers that are still open are held in a list, the innermost first, so
that one pass over the tokens suffices. A key that comes twice keeps its first place and its last
value.
-/

namespace TensorFusion.Json

/-- An open container. -/
inductive Frame where
  /-- A list, with its items in reverse. -/
  | list (items : List Value)
  /-- A map between two entries. -/
  | map (entries : Table Value)
  /-- A map whose next entry has its key, but no value yet. -/
  | entry (entries : Table Value) (key : Atom)

/-- What has to come next. -/
inductive Need where
  /-- A value. -/
  | value
  /-- The first item of a list, or its end. -/
  | firstItem
  /-- The first key of a map, or its end. -/
  | firstKey
  /-- A key. -/
  | key
  /-- The colon behind a key. -/
  | colon (key : Atom)
  /-- A comma, or the end of the innermost container. -/
  | more
  /-- Nothing. -/
  | nothing (result : Value)

/-- The state of a reading. -/
structure Reading where
  frames : List Frame := []
  need : Need := .value

def misplaced {α : Type} : Except Error α := .error .malformedDocument

namespace Reading

def deliver (v : Value) : List Frame → Except Error Reading
  | [] => .ok { need := .nothing v }
  | .list items :: rest => .ok { frames := .list (v :: items) :: rest, need := .more }
  | .entry entries key :: rest =>
      .ok { frames := .map (entries.insert key v) :: rest, need := .more }
  | .map _ :: _ => misplaced

def begin (frames : List Frame) : Token → Except Error Reading
  | .atom a => deliver (.atom a) frames
  | .openList => .ok { frames := .list [] :: frames, need := .firstItem }
  | .openMap => .ok { frames := .map {} :: frames, need := .firstKey }
  | .overlong => .error .unreadable
  | _ => misplaced

def endList : List Frame → Except Error Reading
  | .list items :: rest => deliver (.list items.reverse) rest
  | _ => misplaced

def endMap : List Frame → Except Error Reading
  | .map entries :: rest => deliver (.map entries.entries) rest
  | _ => misplaced

def takeKey (frames : List Frame) : Token → Except Error Reading
  | .atom key => if key.points?.isSome then .ok { frames, need := .colon key } else misplaced
  | _ => misplaced

def step (r : Reading) (token : Token) : Except Error Reading :=
  match r.need, token with
  | .value, token => begin r.frames token
  | .firstItem, .closeList => endList r.frames
  | .firstItem, token => begin r.frames token
  | .firstKey, .closeMap => endMap r.frames
  | .firstKey, token => takeKey r.frames token
  | .key, token => takeKey r.frames token
  | .colon key, .colon => match r.frames with
    | .map entries :: rest => .ok { frames := .entry entries key :: rest, need := .value }
    | _ => misplaced
  | .more, .closeList => endList r.frames
  | .more, .closeMap => endMap r.frames
  | .more, .comma => match r.frames with
    | .list _ :: _ => .ok { r with need := .value }
    | .map _ :: _ => .ok { r with need := .key }
    | _ => misplaced
  | _, _ => misplaced

def finish (r : Reading) : Except Error Value :=
  match r.need with
  | .nothing v => .ok v
  | _ => misplaced

end Reading

/-- The value that a list of tokens is. The first fault counts. -/
def parse (tokens : List Token) : Except Error Value := do
  (← tokens.foldlM Reading.step {}).finish

def read (text : String) : Except Error Value := parse (tokenize text)

end TensorFusion.Json
