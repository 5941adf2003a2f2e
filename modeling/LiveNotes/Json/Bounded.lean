import LiveNotes.Json.Value
import LiveNotes.Text.Split

/-! Values cut to a size that can be stored: long texts, long lists and objects, and what nests too
deep. -/

namespace LiveNotes.Json

def maxTextLength : Nat := 2000

def maxEntries : Nat := 200

/-- How many values may stand around another one. -/
def maxDepth : Nat := 5

/-- Stands for a value that nests too deep. -/
def depthMarker : Json := .text "[MaxDepth]"

mutual

/-- A value inside of which `room` more values may nest. -/
def cutTo (room : Nat) : Json → Json
  | .text s => .text (Text.truncate s maxTextLength)
  | .array items => .array (cutItems room maxEntries items)
  | .object fields => .object (cutFields room maxEntries fields)
  | v => v

/-- The first `count` items, which are replaced when there is no room for them. -/
def cutItems (room count : Nat) : List Json → List Json
  | [] => []
  | v :: vs =>
    match count with
    | 0 => []
    | count + 1 =>
      (match room with
        | 0 => depthMarker
        | room + 1 => cutTo room v) :: cutItems room count vs

def cutFields (room count : Nat) : List (String × Json) → List (String × Json)
  | [] => []
  | (name, v) :: fields =>
    match count with
    | 0 => []
    | count + 1 =>
      (name, match room with
        | 0 => depthMarker
        | room + 1 => cutTo room v) :: cutFields room count fields

end

/-- A value within all limits. -/
def bounded (v : Json) : Json := cutTo maxDepth v

end LiveNotes.Json
