/-!
# Sinks

Where printed lines go: a list that keeps them, a place that takes none, or one that takes some and
then no more.
-/

namespace Lox

inductive Sink where
  /-- Keeps every line, the last first. -/
  | lines (reversed : List String)
  /-- Refuses every line, for the given reason. -/
  | broken (reason : String)
  /-- Keeps so many lines more, and refuses those that follow. -/
  | closing (room : Nat) (reversed : List String) (reason : String)

namespace Sink

def empty : Sink := lines []

/-- Why the next line is refused, if it is. -/
def refusal? : Sink → Option String
  | lines _ | closing (_ + 1) _ _ => none
  | broken reason | closing 0 _ reason => some reason

def write (line : String) : Sink → Except String Sink
  | lines reversed => .ok (lines (line :: reversed))
  | broken reason | closing 0 _ reason => .error reason
  | closing (room + 1) reversed reason => .ok (closing room (line :: reversed) reason)

def written : Sink → List String
  | lines reversed | closing _ reversed _ => reversed.reverse
  | broken _ => []

def clear : Sink → Sink
  | lines _ => empty
  | broken reason => broken reason
  | closing room _ reason => closing room [] reason

end Sink

end Lox
