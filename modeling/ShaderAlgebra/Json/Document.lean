import ShaderAlgebra.Json.Token
import ShaderAlgebra.Json.Value

/-!
# Documents as far as they can be read

A text is turned into a tree even if it is malformed: the tree then ends where
the text goes wrong and records the fault there.  Reading a document for some
purpose walks the tree from left to right, so a text that is not of the expected
form fails at its first fault, whether that is one of form or one of content.

The tree is built in one pass over the tokens, with the unfinished arrays and
objects on a stack.
-/

namespace ShaderAlgebra
namespace Json

/-- The name of a member, unless it has undecodable parts. -/
abbrev Key := Except TextFault String

/-- How an array or object ends. -/
inductive Stop where
  /-- With its bracket. -/
  | closed
  /-- With something else than a comma or its bracket. -/
  | missing (fault : TextFault)
  /-- After a comma, without a name. -/
  | afterComma (fault : TextFault)
  /-- With a name that goes wrong. -/
  | cut (cut : Cut)
deriving DecidableEq, Repr

/-- A document as far as it can be read. -/
inductive Doc where
  | null
  | bool (b : Bool)
  | num (value : Except TextFault Number)
  | str (value : Except TextFault String)
  | arr (items : List Doc) (stop : Stop)
  | obj (members : List (Key × Doc)) (stop : Stop)
  /-- A value that goes wrong. -/
  | cut (cut : Cut)
  /-- No value at all. -/
  | absent (fault : TextFault)
deriving Repr, Inhabited

/-- A whole text: its document, and whether something follows it. -/
structure Document where
  root : Doc
  trailing : Bool

/-- An unfinished array or object around the value that is due, with what is finished of it in
reverse. -/
inductive Frame where
  | items (done : List Doc)
  | field (done : List (Key × Doc)) (key : Key)

/-- What is due next. -/
inductive Due where
  /-- A value. -/
  | value
  /-- The first item of an array, or its end. -/
  | firstItem
  /-- A comma in an array, or its end. -/
  | nextItem (done : List Doc)
  /-- The first name of an object, or its end. -/
  | firstKey
  /-- A comma in an object, or its end. -/
  | nextMember (done : List (Key × Doc))
  /-- A name after a comma. -/
  | nextKey (done : List (Key × Doc))
  /-- A colon. -/
  | colon (done : List (Key × Doc)) (key : Key)
  /-- The end of the text. -/
  | ended (root : Doc)

/-- The document around a value that is not finished.  What stands around it ends there too. -/
def abandon : Doc → List Frame → Document
  | d, [] => ⟨d, false⟩
  | d, .items done :: frames => abandon (.arr (d :: done).reverse .closed) frames
  | d, .field done key :: frames => abandon (.obj ((key, d) :: done).reverse .closed) frames

/-- Puts a finished value where it belongs. -/
def deliver (d : Doc) : List Frame → Due × List Frame
  | [] => (.ended d, [])
  | .items done :: frames => (.nextItem (d :: done), frames)
  | .field done key :: frames => (.nextMember ((key, d) :: done), frames)

/-- What a token means where a value is due. -/
def Token.start (t : Token) (frames : List Frame) : Except Document (Due × List Frame) :=
  match t with
  | .null => .ok (deliver .null frames)
  | .bool b => .ok (deliver (.bool b) frames)
  | .num v => .ok (deliver (.num v) frames)
  | .str v => .ok (deliver (.str v) frames)
  | .openArray => .ok (.firstItem, frames)
  | .openObject => .ok (.firstKey, frames)
  | .cut c => .error (abandon (.cut c) frames)
  | .closeArray | .closeObject | .comma | .colon | .stray =>
    .error (abandon (.absent .malformed) frames)

/-- What a token means where a name is due: `stop` is how the object ends at any other token. -/
def Token.key (t : Token) (stop : Stop) (done : List (Key × Doc)) (frames : List Frame) :
    Except Document (Due × List Frame) :=
  match t with
  | .str key => .ok (.colon done key, frames)
  | .cut c =>
    .error (abandon (.obj done.reverse (if c.quoted then .cut c else stop)) frames)
  | _ => .error (abandon (.obj done.reverse stop) frames)

/-- What a token means for what is due. -/
def Due.step (due : Due) (frames : List Frame) (t : Token) : Except Document (Due × List Frame) :=
  match due, t with
  | .value, t => t.start frames
  | .firstItem, .closeArray => .ok (deliver (.arr [] .closed) frames)
  | .firstItem, t => t.start (.items [] :: frames)
  | .nextItem done, .comma => .ok (.value, .items done :: frames)
  | .nextItem done, .closeArray => .ok (deliver (.arr done.reverse .closed) frames)
  | .nextItem done, _ => .error (abandon (.arr done.reverse (.missing .malformed)) frames)
  | .firstKey, .closeObject => .ok (deliver (.obj [] .closed) frames)
  | .firstKey, t => t.key (.missing .malformed) [] frames
  | .nextMember done, .comma => .ok (.nextKey done, frames)
  | .nextMember done, .closeObject => .ok (deliver (.obj done.reverse .closed) frames)
  | .nextMember done, _ => .error (abandon (.obj done.reverse (.missing .malformed)) frames)
  | .nextKey done, t => t.key (.afterComma .malformed) done frames
  | .colon done key, .colon => .ok (.value, .field done key :: frames)
  | .colon done key, _ =>
    .error (abandon (.obj ((key, .absent .malformed) :: done).reverse .closed) frames)
  | .ended root, _ => .error ⟨root, true⟩

/-- The document of a text that ends with something due. -/
def Due.finish (due : Due) (frames : List Frame) : Document :=
  match due with
  | .value => abandon (.absent .truncated) frames
  | .firstItem => abandon (.arr [] (.missing .truncated)) frames
  | .nextItem done => abandon (.arr done.reverse (.missing .truncated)) frames
  | .firstKey => abandon (.obj [] (.missing .truncated)) frames
  | .nextMember done => abandon (.obj done.reverse (.missing .truncated)) frames
  | .nextKey done => abandon (.obj done.reverse (.afterComma .truncated)) frames
  | .colon done key => abandon (.obj ((key, .absent .truncated) :: done).reverse .closed) frames
  | .ended root => ⟨root, false⟩

/-- Builds the document of tokens. -/
def build (due : Due) (frames : List Frame) : List Token → Document
  | [] => due.finish frames
  | t :: rest =>
    match due.step frames t with
    | .ok (due, frames) => build due frames rest
    | .error document => document

/-- The document of a text. -/
def Document.ofSymbols (text : List Symbol) : Document :=
  build .value [] (tokens text)

/-- The document of a string. -/
def Document.ofString (s : String) : Document :=
  ofSymbols (Symbol.ofString s)

end Json
end ShaderAlgebra
