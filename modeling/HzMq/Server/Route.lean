import HzMq.Common.StdTypes

/-!
# Routing keys (`route.hpp`)

`matchSegments` scans key and pattern once, word by word. The two positions of
the source are kept as the two suffixes still to be read; a dot at the very end
leaves an empty suffix, exactly as a position at the end of the string does.
-/

namespace HzMq

/-- Open as well: `other` is what reaches the `default` branches. -/
inductive ExchangeType
  | direct
  | fanout
  | topic
  | headers
  | other (value : Int32)
  deriving DecidableEq, Repr

namespace Router

def dot : UInt8 := 46

def splitWord : Bytes → Bytes × Bytes × Bool
  | [] => ([], [], false)
  | c :: cs =>
    if c = dot then ([], cs, true)
    else
      let (word, rest, found) := splitWord cs
      (c :: word, rest, found)

/-- The leftover loop: only `#` words may remain in the pattern. -/
def onlyHashes : Nat → Bytes → Bool
  | 0, _ => true
  | _ + 1, [] => true
  | fuel + 1, c :: cs =>
    let (ps, rest, _) := splitWord (c :: cs)
    if ps ≠ str "#" then false else onlyHashes fuel rest

/-- The main loop; every round consumes at least one byte of the key. -/
def matchLoop : Nat → Bytes → Bytes → Bool
  | fuel + 1, k :: ks, p :: ps =>
    let (keyWord, keyRest, _) := splitWord (k :: ks)
    let (patternWord, patternRest, more) := splitWord (p :: ps)
    if patternWord ≠ str "#" ∧ patternWord ≠ str "*" ∧ patternWord ≠ keyWord then false
    else if !more && patternWord == str "#" then true
    else matchLoop fuel keyRest patternRest
  | _, key, pattern => onlyHashes pattern.length pattern && key.isEmpty

def matchSegments (key pattern : Bytes) : Bool := matchLoop key.length key pattern

def matchRoute (type : ExchangeType) (routingKey bindingKey : Bytes) : Bool :=
  match type with
  | .direct => routingKey == bindingKey
  | .fanout => true
  | .topic => matchSegments routingKey bindingKey
  | .headers => false
  | .other _ => false

example : matchRoute .topic (str "user.profile.view") (str "user.*.view") = true := by decide

example : matchRoute .topic (str "user") (str "user.#") = true := by decide

end Router

end HzMq
