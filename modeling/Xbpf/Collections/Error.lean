/-!
# Errors of the collections

Errors are told apart by their kind. The kinds that the collections look at or
report themselves are named, all others are `other`.
-/

namespace Xbpf

namespace Collections

inductive ErrorKind
  | alreadyExists
  | notFound
  | invalidInput
  | other
  deriving DecidableEq, Repr

structure Error where
  kind : ErrorKind
  msg : String
  deriving DecidableEq, Repr

def invalidInput (msg : String) : Error :=
  ⟨.invalidInput, msg⟩

end Collections

end Xbpf
