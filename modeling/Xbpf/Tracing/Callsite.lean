import Xbpf.Files.Path
import Xbpf.Tracing.Event

/-!
# The callsites of the events

An event is emitted with the metadata of its callsite, which is created and
leaked on first use. The leaked metadata are an arena that only grows, and a
reference to one of them is its index there. `crateRoot` is the directory of the
crate, whose leading components are dropped from the file of an event.
-/

namespace Xbpf

namespace Tracing

open Files

def target : String := "bpf"

inductive MetadataKind
  | event
  | span
  deriving DecidableEq, Repr

/-- The static callsites that `get_callsite` refers to, one for each branch. -/
inductive FakeCallsite
  | ofSpans
  | ofEvents
  deriving DecidableEq, Repr

def FakeCallsite.kind : FakeCallsite → MetadataKind
  | ofSpans => .event
  | ofEvents => .span

structure Metadata where
  name : String
  target : String
  level : Level
  file : Option String
  line : Option UInt32
  modulePath : Option String
  fields : List String
  callsite : FakeCallsite
  kind : MetadataKind
  deriving DecidableEq, Repr

/-- The callsites in use, and the metadata that were leaked for them. -/
structure Callsites where
  table : List (CallsiteKey × ℕ)
  leaked : List Metadata

def dropShared {β : Type*} [DecidableEq β] : List β → List β → List β
  | f :: full, b :: base => if f = b then dropShared full base else f :: full
  | full, _ => full

/-- The path `full` without the leading components that it shares with `base`. -/
def stripMatchingPrefixComponents {α : Type*} [DecidableEq α] [PathAlphabet α]
    (full base : List α) : List α :=
  (dropShared (components full) (components base)).foldl
    (fun out c => push out c.asOsStr) []

def Metadata.ofKey (crateRoot : List Char) (key : CallsiteKey) : Metadata :=
  let (file, line, isSpan, level) := key
  let callsite := if isSpan then FakeCallsite.ofSpans else FakeCallsite.ofEvents
  let staticFile := file.map fun file =>
    String.ofList (stripMatchingPrefixComponents file.toList crateRoot)
  { name := "", target := Tracing.target, level, file := staticFile, line,
    modulePath := none, fields := ["message"], callsite,
    kind := if isSpan then .span else .event }

/-- A reference to the metadata of a callsite, which are created on first use. -/
def getCallsite (crateRoot : List Char) (cs : Callsites) (key : CallsiteKey) :
    Callsites × ℕ :=
  match cs.table.lookup key with
  | some metadata => (cs, metadata)
  | none =>
      let metadata := cs.leaked.length
      (⟨(key, metadata) :: cs.table, cs.leaked ++ [.ofKey crateRoot key]⟩, metadata)

end Tracing

end Xbpf
