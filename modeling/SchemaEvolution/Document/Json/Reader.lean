import SchemaEvolution.Document.Json.Token

/-!
# Reading JSON documents

The reader goes once through the tokens, with the open sequences and tables on a stack. A
token out of place breaks the document off there; what was read before it stays.

## Main definitions

* `Json.Frame`: an open sequence or table
* `Json.State`, `Json.State.step`: the reader between two tokens, and one token
* `Json.read`: the document that a text holds
-/

namespace SchemaEvolution.Json

/-- An open sequence or table with what it has so far, last first. A table also has the
name whose value is being read. -/
inductive Frame where
  | sequence (items : List Reading)
  | table (members : List (String × Reading)) (name : String)

/-- What the reader waits for, and the frames around it, innermost first. -/
inductive State where
  /-- A value. -/
  | atValue (frames : List Frame)
  /-- The first item of a sequence, or its end. -/
  | atFirstItem (frames : List Frame)
  /-- The first name in a table, or its end. -/
  | atFirstName (frames : List Frame)
  /-- Another name in a table with the given members. -/
  | atName (members : List (String × Reading)) (frames : List Frame)
  /-- The colon behind a name. -/
  | atColon (members : List (String × Reading)) (name : String) (frames : List Frame)
  /-- A separator or the end of the innermost frame. -/
  | atSeparator (frame : Frame) (frames : List Frame)
  /-- The end of the text, behind a value. -/
  | atEnd (root : Reading)
  /-- Nothing: the document is broken off. -/
  | brokenOff (root : Reading)

/-- A value that was broken off, within the frames around it. -/
def wrap (inner : Reading) : List Frame → Reading
  | [] => inner
  | .sequence items :: frames => wrap (.sequence (items.reverse ++ [inner]) false) frames
  | .table members name :: frames =>
    wrap (.table (members.reverse ++ [(name, inner)]) false) frames

/-- The frame with one more value. -/
def Frame.push (value : Reading) : Frame → Frame
  | .sequence items => .sequence (value :: items)
  | .table members name => .table ((name, value) :: members) name

namespace State

/-- Values may be nested this deep. -/
def depthLimit : Nat := 127

/-- The reader after a whole value. -/
def deliver (value : Reading) : List Frame → State
  | [] => .atEnd value
  | frame :: frames => .atSeparator (frame.push value) frames

/-- The reader with a document that is broken off where a value should stand. -/
def giveUp (frames : List Frame) : State := .brokenOff (wrap .broken frames)

/-- The reader after the token with which a value begins. -/
def begin (token : Token) (frames : List Frame) : State :=
  match token with
  | .text value => deliver (.text value) frames
  | .scalar value => deliver value frames
  | .openSequence =>
    if frames.length < depthLimit then .atFirstItem frames
    else .brokenOff (wrap (.sequence [] false) frames)
  | .openTable =>
    if frames.length < depthLimit then .atFirstName frames
    else .brokenOff (wrap (.table [] false) frames)
  | _ => giveUp frames

/-- **One token.** -/
def step (state : State) (token : Token) : State :=
  match state, token with
  | .atValue frames, token => begin token frames
  | .atFirstItem frames, .closeSequence => deliver (.sequence [] true) frames
  | .atFirstItem frames, token => begin token (.sequence [] :: frames)
  | .atFirstName frames, .closeTable => deliver (.table [] true) frames
  | .atFirstName frames, .text name => .atColon [] name frames
  | .atFirstName frames, _ => .brokenOff (wrap (.table [] false) frames)
  | .atName members frames, .text name => .atColon members name frames
  | .atName members frames, _ => .brokenOff (wrap (.table members.reverse false) frames)
  | .atColon members name frames, .colon => .atValue (.table members name :: frames)
  | .atColon members name frames, _ => giveUp (.table members name :: frames)
  | .atSeparator (.sequence items) frames, .comma => .atValue (.sequence items :: frames)
  | .atSeparator (.sequence items) frames, .closeSequence =>
    deliver (.sequence items.reverse true) frames
  | .atSeparator (.sequence items) frames, _ =>
    .brokenOff (wrap (.sequence items.reverse false) frames)
  | .atSeparator (.table members _) frames, .comma => .atName members frames
  | .atSeparator (.table members _) frames, .closeTable =>
    deliver (.table members.reverse true) frames
  | .atSeparator (.table members _) frames, _ =>
    .brokenOff (wrap (.table members.reverse false) frames)
  | .atEnd root, _ => .brokenOff root
  | .brokenOff root, _ => .brokenOff root

/-- The document at the end of the text. -/
def finish : State → Document
  | .atValue frames => ⟨wrap .broken frames, false⟩
  | .atFirstItem frames => ⟨wrap (.sequence [] false) frames, false⟩
  | .atFirstName frames => ⟨wrap (.table [] false) frames, false⟩
  | .atName members frames => ⟨wrap (.table members.reverse false) frames, false⟩
  | .atColon members name frames => ⟨wrap .broken (.table members name :: frames), false⟩
  | .atSeparator (.sequence items) frames => ⟨wrap (.sequence items.reverse false) frames, false⟩
  | .atSeparator (.table members _) frames => ⟨wrap (.table members.reverse false) frames, false⟩
  | .atEnd root => ⟨root, true⟩
  | .brokenOff root => ⟨root, false⟩

end State

/-- **Reading a document.** -/
def read (text : String) : Document :=
  ((tokens text.toList).foldl State.step (.atValue [])).finish

end SchemaEvolution.Json
