import LiveTemplate.Number.Spelling
import LiveTemplate.Skeleton

/-!
# Values

Values fill the holes of a template. Scalars are known by their content. Templates,
lists and mappings carry the number they were made under, so that two of them are the
same only if they were made at once; callbacks, reference cells and payloads are known
by name. A template shares its skeleton with all that were made from the same source.
-/
namespace LiveTemplate

/-- Skeletons are numbered as they are parsed. The skeleton of a bare value has one
hole and is never parsed. -/
inductive SkeletonId where
  | bare
  | parsed (number : Nat)
deriving DecidableEq, Repr

structure SharedSkeleton where
  id : SkeletonId
  skeleton : Skeleton
deriving DecidableEq, Repr

namespace SharedSkeleton

def nodes (s : SharedSkeleton) : List Node := s.skeleton.nodes

def holes (s : SharedSkeleton) : Nat := s.skeleton.holes

/-- The skeleton of a value rendered on its own. -/
def bare : SharedSkeleton := ⟨.bare, ⟨[.hole 0], 1⟩⟩

end SharedSkeleton

inductive Value where
  | null
  | bool (b : Bool)
  | number (n : Number)
  | text (s : String)
  | template (handle : Nat) (shared : SharedSkeleton) (values : List Value)
  | list (handle : Nat) (items : List Value)
  | attributes (handle : Nat) (entries : List (String × Value))
  | callback (name : String)
  | cell (name : String)
  | payload (name : String)
deriving Repr

namespace Value

mutual
def beq : Value → Value → Bool
  | .null, .null => true
  | .bool b, .bool b' => b == b'
  | .number n, .number n' => n == n'
  | .text s, .text s' => s == s'
  | .template handle shared values, .template handle' shared' values' =>
      handle == handle' && shared == shared' && beqAll values values'
  | .list handle items, .list handle' items' => handle == handle' && beqAll items items'
  | .attributes handle entries, .attributes handle' entries' =>
      handle == handle' && beqEntries entries entries'
  | .callback name, .callback name' => name == name'
  | .cell name, .cell name' => name == name'
  | .payload name, .payload name' => name == name'
  | _, _ => false
termination_by structural a => a

def beqAll : List Value → List Value → Bool
  | [], [] => true
  | a :: as, b :: bs => beq a b && beqAll as bs
  | _, _ => false
termination_by structural as => as

def beqEntries : List (String × Value) → List (String × Value) → Bool
  | [], [] => true
  | (name, a) :: as, (name', b) :: bs => name == name' && beq a b && beqEntries as bs
  | _, _ => false
termination_by structural as => as
end

mutual
theorem beq_iff : (a b : Value) → (beq a b = true ↔ a = b)
  | .null, b => by cases b <;> simp [beq]
  | .bool _, b => by cases b <;> simp [beq]
  | .number _, b => by cases b <;> simp [beq]
  | .text _, b => by cases b <;> simp [beq]
  | .template _ _ values, b => by cases b <;> simp [beq, beqAll_iff values, and_assoc]
  | .list _ items, b => by cases b <;> simp [beq, beqAll_iff items]
  | .attributes _ entries, b => by cases b <;> simp [beq, beqEntries_iff entries]
  | .callback _, b => by cases b <;> simp [beq]
  | .cell _, b => by cases b <;> simp [beq]
  | .payload _, b => by cases b <;> simp [beq]
termination_by structural a => a

theorem beqAll_iff : (as bs : List Value) → (beqAll as bs = true ↔ as = bs)
  | [], bs => by cases bs <;> simp [beqAll]
  | a :: as, bs => by cases bs <;> simp [beqAll, beq_iff a, beqAll_iff as]
termination_by structural as => as

theorem beqEntries_iff : (as bs : List (String × Value)) → (beqEntries as bs = true ↔ as = bs)
  | [], bs => by cases bs <;> simp [beqEntries]
  | (_, a) :: as, bs => by
      cases bs <;> simp [beqEntries, beq_iff a, beqEntries_iff as, Prod.ext_iff]
termination_by structural as => as
end

/-- Two values that are held at one place need no comparison. So a value that holds
another many times over is compared with itself at once. -/
instance : DecidableEq Value := fun a b =>
  withPtrEqDecEq a b fun _ => decidable_of_iff _ (beq_iff a b)

/-- Whether a hole that shows one value need not change to show the other. Numbers are
compared as quantities, everything else by what makes it the same value. -/
def same : Value → Value → Bool
  | .number a, .number b => a.same b
  | a, b => a == b

theorem same_comm (a b : Value) : a.same b = b.same a := by
  cases a <;> cases b <;> simp [same, Number.same_comm, Bool.beq_comm]

theorem same_self (v : Value) : v.same v = true ↔ v ≠ .number .nan := by
  cases v <;> simp [same, Number.same_self]

def isNull (v : Value) : Bool := v == .null

/-- What makes a presence attribute present. Everything that is not a scalar does. -/
def isTruthy : Value → Bool
  | .null => false
  | .bool b => b
  | .number n => n.isTruthy
  | .text s => s != ""
  | _ => true

/-- The text of a scalar. Other values have none. -/
def toText : Value → String
  | .bool b => if b then "true" else "false"
  | .number n => n.spell Number.plain
  | .text s => s
  | _ => ""

/-- The entries of a mapping; other values have none. -/
def entries : Value → List (String × Value)
  | .attributes _ entries => entries
  | _ => []

/-- The skeleton and the values under which a value is rendered on its own. -/
def parts : Value → SharedSkeleton × List Value
  | .template _ shared values => (shared, values)
  | v => (.bare, [v])

/-- What the key of a template is bound to: the key of its first top-level node. -/
def keyOfFirst? (shared : SharedSkeleton) : Option AttrValue :=
  match shared.nodes with
  | .element _ attrs _ :: _ => keySource? attrs
  | _ => none

/-- The key of a template with these values. An absent value is no key. -/
def keyOf? (shared : SharedSkeleton) (values : List Value) : Option Value :=
  match keyOfFirst? shared with
  | some (.literal s) => some (.text s)
  | some (.hole index) => values[index]?.filter fun v => !v.isNull
  | none => none

/-- The key under which a template is recognised in a list. -/
def key? : Value → Option Value
  | .template _ shared values => keyOf? shared values
  | _ => none

/-- A list is reconciled by keys when it is not empty and every item has one. -/
def allKeyed (items : List Value) : Bool :=
  !items.isEmpty && items.all fun item => item.key?.isSome

end Value

end LiveTemplate
