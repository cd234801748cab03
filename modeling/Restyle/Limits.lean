/-!
# Limits

The bounds that one build of the program works under. They are data, so every function that
respects a bound takes it from here.
-/

namespace Restyle

structure Limits where
  /-- Nodes a chain may hold, removed ones included. -/
  nodes : Nat
  tokens : Nat
  /-- Bytes of one comment. -/
  commentBytes : Nat
  /-- Bytes of one string literal. -/
  stringBytes : Nat
  /-- Applications of one rule within one pass. -/
  rounds : Nat
  rules : Nat
  /-- Bytes of a log message before it is cut. -/
  messageBytes : Nat
  /-- Events a file may log before all but errors are dropped. -/
  fileEvents : Nat
  deriving DecidableEq, Repr

def Limits.development : Limits where
  nodes := 2000000
  tokens := 1000000
  commentBytes := 100000
  stringBytes := 1048576
  rounds := 16
  rules := 128
  messageBytes := 4096
  fileEvents := 1000

end Restyle
