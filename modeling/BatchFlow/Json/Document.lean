import BatchFlow.Json.Token

namespace BatchFlow.Json

/-!
# Documents

A document is a JSON text whose grammar has been checked. It still shows every member that was
written, repeated keys included, and a part of it may denote no value.

* `Document.parse?` — the document of a text, read by a machine with a stack of open containers.
* `Document.value?` — the value of a document: of the members under one key the last counts, at
  the place of the first.
* `Json.parse?` — the value that a text denotes.
-/

/-- A text that follows the grammar. `scalar none` is a part that denotes nothing. -/
inductive Document where
  | scalar (value : Option Json)
  | array (items : List Document)
  | object (members : List (Option String × Document))

/-- Containers nested deeper than this denote nothing. -/
def depthLimit : Nat := 127

/-- An open container: what it holds so far, last first. -/
inductive Frame where
  | array (items : List Document)
  | object (members : List (Option String × Document))
  | member (members : List (Option String × Document)) (key : Option String)

/-- What the grammar asks for next. -/
inductive Expectation where
  | value
  | valueOrClose
  | key
  | keyOrClose
  | colon
  | commaOrClose
  | finish (document : Document)

/-- The open containers, innermost first, and what comes next. -/
structure Reader where
  frames : List Frame
  expects : Expectation

namespace Reader

/-- Puts a complete value into the innermost open container. -/
def give? (frames : List Frame) (document : Document) : Option Reader :=
  match frames with
  | [] => some ⟨[], .finish document⟩
  | .array items :: rest => some ⟨.array (document :: items) :: rest, .commaOrClose⟩
  | .member members key :: rest =>
    some ⟨.object ((key, document) :: members) :: rest, .commaOrClose⟩
  | .object _ :: _ => none

/-- A complete container, which denotes nothing when it is nested too deep. -/
def container (outer : List Frame) (document : Document) : Document :=
  if outer.length < depthLimit then document else .scalar none

/-- A value begins, or all of it is there. -/
def begin? (frames : List Frame) : Token → Option Reader
  | .openArray => some ⟨.array [] :: frames, .valueOrClose⟩
  | .openObject => some ⟨.object [] :: frames, .keyOrClose⟩
  | .text value => give? frames (.scalar (value.map .string))
  | .scalar value => give? frames (.scalar value)
  | _ => none

/-- The innermost container ends. -/
def close? : List Frame → Token → Option Reader
  | .array items :: outer, .closeArray => give? outer (container outer (.array items.reverse))
  | .object members :: outer, .closeObject =>
    give? outer (container outer (.object members.reverse))
  | _, _ => none

/-- One token more. -/
def step? (reader : Reader) (token : Token) : Option Reader :=
  match reader.expects, token with
  | .value, token => begin? reader.frames token
  | .valueOrClose, .closeArray => close? reader.frames .closeArray
  | .valueOrClose, token => begin? reader.frames token
  | .keyOrClose, .closeObject => close? reader.frames .closeObject
  -- a key is a text, which may denote nothing as any other text
  | .key, .text key | .keyOrClose, .text key =>
    match reader.frames with
    | .object members :: outer => some ⟨.member members key :: outer, .colon⟩
    | _ => none
  | .colon, .colon => some ⟨reader.frames, .value⟩
  | .commaOrClose, .comma =>
    match reader.frames with
    | .array _ :: _ => some ⟨reader.frames, .value⟩
    | .object _ :: _ => some ⟨reader.frames, .key⟩
    | _ => none
  | .commaOrClose, token => close? reader.frames token
  | _, _ => none

/-- Several tokens more. -/
def run? (reader : Reader) : List Token → Option Reader
  | [] => some reader
  | token :: rest => do (← reader.step? token).run? rest

end Reader

namespace Document

/-- The document of a text, if it follows the grammar. -/
def parse? (text : String) : Option Document := do
  match (← Reader.run? ⟨[], .value⟩ (← Token.ofText? text)).expects with
  | .finish document => return document
  | _ => none

mutual

/-- The value that a document denotes. -/
def value? : Document → Option Json
  | .scalar value => value
  | .array items => (items? items).map .array
  | .object members => (members? members).map fun entries => .object (Table.ofList entries)

/-- The values of the items, if each of them denotes one. -/
def items? : List Document → Option (List Json)
  | [] => some []
  | item :: rest => do return (← item.value?) :: (← items? rest)

/-- The members as written, if each key and each item denotes something. -/
def members? : List (Option String × Document) → Option (List (String × Json))
  | [] => some []
  | (key, item) :: rest => do return (← key, ← item.value?) :: (← members? rest)

end

end Document

/-- The value that a text denotes. -/
def parse? (text : String) : Option Json := do (← Document.parse? text).value?

end BatchFlow.Json
