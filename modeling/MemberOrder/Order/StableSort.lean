/-
  Stable sorting. `stableSort` orders by a relation that always answers. `insertionSort`
  orders by a comparison that can fail or contradict itself: the initial run is taken over
  and every later item is placed by bisection, so which comparisons are made, and hence
  which one fails first, is fixed.
-/

namespace MemberOrder.Order

variable {α ε : Type}

/-- Puts an item before the first one that it does not have to follow. -/
def insertSorted (le : α → α → Bool) (x : α) : List α → List α
  | [] => [x]
  | y :: rest => if le x y then x :: y :: rest else y :: insertSorted le x rest

/-- Sorts by a relation; items that are related both ways keep their order. -/
def stableSort (le : α → α → Bool) : List α → List α
  | [] => []
  | x :: rest => insertSorted le x (stableSort le rest)

/-- Splits off the longest run that goes on as `goesOn` says; `last` is the item before. -/
def runFrom (goesOn : α → α → Except ε Bool) : (last : α) → List α → Except ε (List α × List α)
  | _, [] => .ok ([], [])
  | last, x :: rest => do
    if ← goesOn x last then
      let (run, others) ← runFrom goesOn x rest
      return (x :: run, others)
    else return ([], x :: rest)

/-- The initial run of a list in ascending order, and the rest. A strictly descending run
is turned around. -/
def initialRun (before : α → α → Except ε Bool) : List α → Except ε (List α × List α)
  | [] => .ok ([], [])
  | [x] => .ok ([x], [])
  | x :: y :: rest => do
    if ← before y x then
      let (run, others) ← runFrom before y rest
      return ((x :: y :: run).reverse, others)
    else
      let (run, others) ← runFrom (fun b a => return !(← before b a)) y rest
      return (x :: y :: run, others)

/-- The place of `x` among the items from `low` up to `high`, found by bisection. -/
def bisect (before : α → α → Except ε Bool) (sorted : List α) (x : α) :
    (fuel low high : Nat) → Except ε Nat
  | 0, low, _ => .ok low
  | fuel + 1, low, high =>
    if low < high then
      let middle := low + (high - low) / 2
      match sorted[middle]? with
      | none => .ok low
      | some y => do
        if ← before x y then bisect before sorted x fuel low middle
        else bisect before sorted x fuel (middle + 1) high
    else .ok low

/-- Places items one by one into a sorted list. -/
def insertEach (before : α → α → Except ε Bool) : (sorted items : List α) → Except ε (List α)
  | sorted, [] => .ok sorted
  | sorted, x :: rest => do
    let place ← bisect before sorted x (sorted.length + 1) 0 sorted.length
    insertEach before (sorted.take place ++ x :: sorted.drop place) rest

/-- Sorts by a comparison that can fail; equal items keep their order. -/
def insertionSort (cmp : α → α → Except ε Ordering) (items : List α) : Except ε (List α) := do
  let before (a b : α) : Except ε Bool := return (← cmp a b) == .lt
  let (run, rest) ← initialRun before items
  insertEach before run rest

end MemberOrder.Order
