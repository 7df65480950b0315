/-
Options as JSON.

The options are an object with the five keys below, each at most once, or an
array of the five values in order.  What is missing has its default; other keys
are ignored, whatever their value.

* `Key` — the keys, and `Key.name`, how they are written;
* `Options.Reading` — how far the options are read;
* `Options.ofJson` — the options of a text, or what is wrong with it first.
-/
import Asdl.Json.Ignored
import Asdl.Options

namespace Asdl

namespace Options

/-! ### Keys -/

/-- The choices that are yes or no. -/
inductive FlagKey where
  | enumSuffix
  | treeMethods
  | sidecar
  deriving DecidableEq, Repr

/-- The choices that are sets of names. -/
inductive NamesKey where
  | flatSums
  | hooks
  deriving DecidableEq, Repr

/-- A choice. -/
inductive Key where
  | flag (k : FlagKey)
  | names (k : NamesKey)
  deriving DecidableEq, Repr

namespace Key

def name : Key → String
  | flag .enumSuffix => "strong_enum_suffix"
  | flag .treeMethods => "emit_debug_methods"
  | names .flatSums => "flat_integer_sums"
  | flag .sidecar => "debug_sidecar"
  | names .hooks => "abbreviation_hooks"

/-- The keys, in the order of an array of values. -/
def all : List Key :=
  [flag .enumSuffix, flag .treeMethods, names .flatSums, flag .sidecar, names .hooks]

/-- The key of a name, if there is one. -/
def ofName? (n : String) : Option Key := all.find? (·.name == n)

@[simp] theorem ofName?_name (k : Key) : ofName? k.name = some k := by
  rcases k with k | k <;> cases k <;> decide

end Key

def setFlag (o : Options) (value : Bool) : FlagKey → Options
  | .enumSuffix => { o with enumSuffix := value }
  | .treeMethods => { o with treeMethods := value }
  | .sidecar => { o with sidecar := value }

def setNames (o : Options) (value : NameSet) : NamesKey → Options
  | .flatSums => { o with flatSums := value }
  | .hooks => { o with hooks := value }

/-! ### Reading -/

open Json (Token Ignored)

/-- Where a value stands. -/
inductive Holder where
  /-- In an object, behind keys of which these are known. -/
  | object (given : List Key)
  /-- In an array, with values for these keys to come. -/
  | array (left : List Key)
  deriving DecidableEq, Repr

/-- What has to come next in a set of names. -/
inductive NamesWant where
  /-- A name or the end. -/
  | first
  /-- A name. -/
  | next
  /-- A comma or the end. -/
  | more
  deriving DecidableEq, Repr

/-- How far the options are read; `o` holds what is read already. -/
inductive Reading where
  | start
  /-- A key has to come, or the end of the object if it was just opened. -/
  | key (o : Options) (given : List Key) (first : Bool)
  /-- A colon has to come. -/
  | colon (o : Options) (given : List Key) (key : Option Key)
  /-- A value has to come. -/
  | value (o : Options) (holder : Holder) (key : Key)
  /-- A value or the end of the array has to come. -/
  | firstValue (o : Options) (left : List Key) (key : Key)
  /-- Inside the value of a key that is not known. -/
  | ignored (o : Options) (given : List Key) (rest : Ignored)
  /-- Inside a set of names. -/
  | names (o : Options) (holder : Holder) (key : NamesKey) (read : NameSet) (want : NamesWant)
  /-- Behind a value. -/
  | more (o : Options) (holder : Holder)
  /-- Behind everything. -/
  | done (o : Options)

namespace Reading

/-- A text where a key has to come. -/
def readKey (o : Options) (given : List Key) (name : String) : Except JsonFault Reading :=
  match Key.ofName? name with
  | none => .ok (.colon o given none)
  | some k => if k ∈ given then .error .mistyped else .ok (.colon o (k :: given) (some k))

/-- A token where the value of a key has to come. -/
def readValue (o : Options) (holder : Holder) : Key → Token → Except JsonFault Reading
  | .flag k, .flag b => .ok (.more (o.setFlag b k) holder)
  | .names k, .mark .openBracket => .ok (.names o holder k .empty .first)
  | _, t => .error t.refusal

/-- A token inside the value of a key that is not known. -/
def readIgnored (o : Options) (given : List Key) (rest : Ignored) (t : Token) :
    Except JsonFault Reading := do
  match ← rest.step t with
  | some rest => return .ignored o given rest
  | none => return .more o (.object given)

/-- A token inside a set of names. -/
def readNames (o : Options) (holder : Holder) (k : NamesKey) (read : NameSet) :
    NamesWant → Token → Except JsonFault Reading
  | .first, .mark .closeBracket => .ok (.more (o.setNames read k) holder)
  | .first, .text (.ok n) _ => .ok (.names o holder k (read.add n) .more)
  | .first, t => .error t.refusal
  | .next, .text (.ok n) _ => .ok (.names o holder k (read.add n) .more)
  | .next, t => .error t.refusal
  | .more, .mark .closeBracket => .ok (.more (o.setNames read k) holder)
  | .more, .mark .comma => .ok (.names o holder k read .next)
  | .more, _ => .error .malformed

/-- A token behind a value. -/
def readMore (o : Options) : Holder → Token → Except JsonFault Reading
  | .object _, .mark .closeBrace => .ok (.done o)
  | .object given, .mark .comma => .ok (.key o given false)
  | .array _, .mark .closeBracket => .ok (.done o)
  | .array (k :: left), .mark .comma => .ok (.value o (.array left) k)
  | _, _ => .error .malformed

/-- One token more. -/
def step : Reading → Token → Except JsonFault Reading
  | start, .mark .openBrace => .ok (key {} [] true)
  | start, .mark .openBracket =>
    match Key.all with
    | [] => .ok (more {} (.array []))
    | k :: left => .ok (firstValue {} left k)
  | start, t => .error t.refusal
  | key o _ true, .mark .closeBrace => .ok (done o)
  | key o given _, .text (.ok n) _ => readKey o given n
  | key _ _ _, .text (.error f) _ => .error f
  | key _ _ _, _ => .error .malformed
  | colon o given (some k), .mark .colon => .ok (value o (.object given) k)
  | colon o given none, .mark .colon => .ok (ignored o given .start)
  | colon _ _ _, _ => .error .malformed
  | value o holder k, t => readValue o holder k t
  | firstValue o _ _, .mark .closeBracket => .ok (done o)
  | firstValue o left k, t => readValue o (.array left) k t
  | ignored o given rest, t => readIgnored o given rest t
  | names o holder k read want, t => readNames o holder k read want t
  | more o holder, t => readMore o holder t
  | done _, _ => .error .malformed

/-- The options, if everything is read. -/
def finish : Reading → Except JsonFault Options
  | done o => .ok o
  | _ => .error .ended

end Reading

/-- The options of a JSON text. -/
def ofJson (text : String) : Except JsonFault Options := do
  let reading ← (Json.tokens text.toList).foldlM Reading.step .start
  reading.finish

end Options

end Asdl
