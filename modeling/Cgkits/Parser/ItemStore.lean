import Cgkits.Lib.FreeList
import Cgkits.Lib.Watched
import Cgkits.Parser.EpsilonItems

/-!
# The items of the state machine in memory (`yystate.c`)

In the model of `lr` a state has its items by value.  In memory an item is an `ITEM_S` behind a
pointer, and `lr` handles pointers: `closure` makes items, `move_eps` and `newstate` move the
pointers into a state, and `freeitem` puts the items that are not needed on a list from which
`newitem` takes them again.  The list is threaded through the field `prod`.

An `ItemStore` is this memory, together with the part of the array `closure_items` that is live: the
items that have been collected and not been moved, freed or left behind.  The functions are watched,
so that `lr` has all the states of the memory that it passes through.
-/

namespace Parser

/-- The field `prod` of an item, which is a link while the item is free. -/
inductive ProdField where
  /-- The production, in an item that is in use. -/
  | prod (p : Production)
  /-- In an item on the free list: the next item on the list. -/
  | next (item : Option ℕ)

/-- `ITEM_S`.  Each item has a set of its own, so the set is a field. -/
structure ItemCell where
  /-- The number of the production, a copy. -/
  prodNum : ℕ
  /-- The production itself, or the next item on the free list. -/
  prod : ProdField
  /-- The symbol to the right of the dot. -/
  rightOfDot : Option ℕ
  /-- The offset of the dot from the start of the production. -/
  dotPosn : ℕ
  /-- The set of lookahead symbols. -/
  lookaheads : Finset ℕ

/-- `RIGH_OF_DOT`, the value of the symbol right of the dot, or 0. -/
def ItemCell.rodVal (c : ItemCell) : ℕ := c.rightOfDot.getD 0

/-- `item_cmp`, as the question whether the first item may stand before the second one. -/
def ItemCell.le (c d : ItemCell) : Bool :=
  if c.rodVal ≠ d.rodVal then c.rodVal ≤ d.rodVal
  else if c.prodNum ≠ d.prodNum then c.prodNum ≤ d.prodNum
  else c.dotPosn ≤ d.dotPosn

/-- The numbers by which `state_cmp` compares items. -/
def ItemCell.key (c : ItemCell) : ℕ × ℕ := (c.prodNum, c.dotPosn)

/-- `STATE_S`.  The lists are the used parts of the arrays. -/
structure StateCell where
  /-- `kernel_items`, the pointers to the kernel items. -/
  kernelItems : List ℕ
  /-- `epsilon_items`, the pointers to the epsilon items. -/
  epsilonItems : List ℕ
  /-- The state has had closure performed. -/
  closed : Bool

/-- The items, the static variables of `yystate.c`, and the live part of `closure_items`. -/
structure ItemStore where
  /-- The items that have been allocated, by address. -/
  heap : ℕ → Option ItemCell
  /-- The next address that `GC_MALLOC` hands out. -/
  brk : ℕ
  /-- `_recycled_items`, the head of the free list. -/
  recycledItems : Option ℕ
  /-- `_nstates`, the number of states. -/
  nstates : ℕ
  /-- The states, by their numbers. -/
  state : ℕ → StateCell
  /-- `_actions`, the chains of actions by state. -/
  actions : ℕ → List Act
  /-- `_gotos`, the chains of goto states by state. -/
  gotos : ℕ → List Act
  /-- The numbers in the tree `_unfinised`. -/
  unfinished : Finset ℕ
  /-- The live part of `closure_items`. -/
  closureItems : List ℕ

/-- What stops `lr`: a wrong use of the memory, or a limit of the source. -/
inductive ItemFault where
  /-- A pointer to memory that has not been allocated or has been freed is followed. -/
  | dangling
  /-- The field `prod` of an item on the free list is used as a production. -/
  | recycled
  /-- The field `prod` of an item that is in use is used as the next item of the free list. -/
  | inUse
  /-- An element behind the used part of an array is read. -/
  | beyond
  /-- A null pointer is followed. -/
  | null
  /-- A loop of the model is given up. -/
  | endless
  /-- No goal symbol, or `Start symbol must have only one right-hand side.` -/
  | startSymbol
  /-- `LR(1) Closure set too large.` or `Too many closure items in state`. -/
  | closureTooLarge
  /-- `Too many epsilon production in state`. -/
  | tooManyEpsilon
  /-- `Kernel of new state too large.` -/
  | kernelTooLarge
  /-- `Too many LALR(1) states.` -/
  | tooManyStates
  /-- `Insufficient memory for unfinished state.` -/
  | insufficient
  /-- `[merge_lookaheads], item mismatched` -/
  | mismatch

/-- A function of `yystate.c` that works on the memory. -/
abbrev LrM : Type → Type := Watched ItemFault ItemStore

namespace ItemStore

open Watched (read write stop)

/-- The memory without items and without states. -/
def empty : ItemStore :=
  ⟨fun _ => none, 0, none, 0, fun _ => ⟨[], [], false⟩, fun _ => [], fun _ => [], ∅, []⟩

/-! ## Items -/

/-- The item at a pointer, or an error when there is none. -/
def fetch (item : ℕ) : LrM ItemCell := do
  match (← read).heap item with
  | none => stop .dangling
  | some c => pure c

/-- `item->prod`, where it is meant to be a production. -/
def prodOf (c : ItemCell) : LrM Production :=
  match c.prod with
  | .next _ => stop .recycled
  | .prod p => pure p

/-- A write to the item at a pointer, which leaves the other items. -/
def setCell (s : ItemStore) (item : ℕ) (c : ItemCell) : ItemStore :=
  { s with heap := Function.update s.heap item (some c) }

/-- Assignments to fields of the item at a pointer, each of them a write. -/
def update (item : ℕ) (f : ItemCell → ItemCell) : LrM PUnit := do
  let c ← fetch item
  write fun s => s.setCell item (f c)

/-- The memory for an item in `newitem`: the first item on the free list, or memory from
`GC_MALLOC`. -/
def takeItem : LrM ℕ := do
  let s ← read
  match s.recycledItems with
  | some item => do
    let c ← fetch item
    match c.prod with
    | .prod _ => stop .inUse
    | .next q => do
      write fun s => { s with recycledItems := q }
      update item fun c => { c with lookaheads := ∅ }
      pure item
  | none => do
    write fun s =>
      { s with
        heap := Function.update s.heap s.brk (some ⟨0, .next none, none, 0, ∅⟩), brk := s.brk + 1 }
    pure s.brk

/-- `newitem`: take an item from the free list or from new memory and set its fields. -/
def newitem (prod : Production) : LrM ℕ := do
  let item ← takeItem
  update item fun c => { c with prod := .prod prod }
  update item fun c => { c with prodNum := prod.num }
  update item fun c => { c with dotPosn := 0 }
  update item fun c => { c with rightOfDot := prod.rhs[0]? }
  pure item

/-- `freeitem`: put an item in front of the free list. -/
def freeitem (item : ℕ) : LrM PUnit := do
  let s ← read
  update item fun c => { c with prod := .next s.recycledItems }
  write fun s => { s with recycledItems := some item }

/-- The loop of `free_recycled_items`, given up after a number of turns. -/
def freeRecycledItems : ℕ → LrM PUnit
  | 0 => do
    match (← read).recycledItems with
    | none => pure ⟨⟩
    | some _ => stop .endless
  | n + 1 => do
    match (← read).recycledItems with
    | none => pure ⟨⟩
    | some p => do
      let c ← fetch p
      match c.prod with
      | .prod _ => stop .inUse
      | .next q => do
        write fun s => { s with recycledItems := q }
        write fun s => { s with heap := Function.update s.heap p none }
        freeRecycledItems n

/-- An item becomes the last one of `closure_items`. -/
def push (item : ℕ) : LrM PUnit :=
  write fun s => { s with closureItems := s.closureItems ++ [item] }

/-! ## Closure -/

section Closure

variable (G : Grammar) (F : SetTable)

/-- `in_closure_items`: the closure item of a production, if there is one. -/
def inClosureItems (prod : Production) : List ℕ → LrM (Option ℕ)
  | [] => pure none
  | item :: closureItems => do
    let c ← fetch item
    let p ← prodOf c
    if p = prod then pure (some item) else inClosureItems prod closureItems

/-- `add_lookahead`: merge a set into the lookaheads of an item, and tell whether there is a new
one. -/
def addLookahead (dst : ℕ) (src : Finset ℕ) : LrM Bool := do
  let c ← fetch dst
  match Parser.addLookahead c.lookaheads src with
  | (set, true) => do
    update dst fun c => { c with lookaheads := set }
    pure true
  | (_, false) => pure false

/-- The item of a production among the closure items, and whether it has been added. -/
def closeItem (prod : Production) : LrM (ℕ × Bool) := do
  let s ← read
  match ← inClosureItems prod s.closureItems with
  | some item => pure (item, false)
  | none =>
    if maxClose ≤ s.closureItems.length then stop .closureTooLarge
    else do
      let item ← newitem prod
      push item
      pure (item, true)

/-- The visit of one production by `do_close`, on the memory. -/
def closeProd (item : ℕ) (didSomething : Bool) (prod : Production) : LrM Bool := do
  let r ← closeItem prod
  let c ← fetch item
  let p ← prodOf c
  let did ← addLookahead r.1 (G.contribution F (p, c.dotPosn) c.lookaheads)
  pure (didSomething || r.2 || did)

/-- `do_close` on the memory: add or update the items of the productions right of the dot. -/
def doClose (item : ℕ) : LrM Bool := do
  let c ← fetch item
  match c.rightOfDot with
  | none => pure false
  | some x =>
    if IsNonterm x then (G.productions x).foldlM (closeProd G F item) false else pure false

/-- A loop of `closure`: `do_close` for the items of a list. -/
def closeItems (items : List ℕ) : LrM Bool :=
  items.foldlM (fun didSomething item => do
    let did ← doClose G F item
    pure (didSomething || did)) false

/-- The loop of `closure` over the closure items, given up after a number of passes. -/
def closeLoop : ℕ → Bool → LrM PUnit
  | 0, _ => stop .endless
  | n + 1, didSomething =>
    if didSomething then do
      let s ← read
      let did ← closeItems G F s.closureItems
      closeLoop n did
    else pure ⟨⟩

/-- `closure` on the memory: the items of the kernel, and passes over the closure items. -/
def closure (fuel cur : ℕ) : LrM PUnit := do
  let s ← read
  let did ← closeItems G F (s.state cur).kernelItems
  closeLoop G F fuel did

end Closure

/-- The visit of one item of the kernel by `kclosure`. -/
def kcloseItem (item : ℕ) : LrM PUnit := do
  let c ← fetch item
  if c.rightOfDot.isSome then do
    let p ← prodOf c
    let citem ← newitem p
    update citem fun d => { d with dotPosn := c.dotPosn }
    update citem fun d => { d with rightOfDot := c.rightOfDot }
    update citem fun d => { d with lookaheads := c.lookaheads }
    let s ← read
    if maxClose ≤ s.closureItems.length then stop .closureTooLarge else push citem
  else pure ⟨⟩

/-- `kclosure` on the memory: copies of the kernel items become live items. -/
def kclosure (cur : ℕ) : LrM PUnit := do
  let s ← read
  (s.state cur).kernelItems.foldlM (fun _ item => kcloseItem item) ⟨⟩

/-! ## Sorting -/

/-- The items at the pointers of a list, fetched one after the other. -/
def fetchAll : List ℕ → LrM (List (ℕ × ItemCell))
  | [] => pure []
  | item :: items => do
    let c ← fetch item
    let cells ← fetchAll items
    pure ((item, c) :: cells)

/-- The call of `sys_ssort`, which rearranges the pointers by the items they point at. -/
def sort : LrM PUnit := do
  let s ← read
  let cells ← fetchAll s.closureItems
  write fun s =>
    { s with closureItems := (ShellSort.shellSort (fun x y => x.2.le y.2) cells).map Prod.fst }

/-! ## The items of empty productions -/

/-- The live part of `closure_items` begins behind the items that are in use elsewhere. -/
def leave (items : List ℕ) : LrM PUnit := write fun s => { s with closureItems := items }

/-- The loop of `move_eps` with `*p` and the items behind it; `nitems` and `moved` are its
variables.  The pointers that it stores in the state leave `closure_items`. -/
def moveEpsLoop (cur nitems : ℕ) : List ℕ → ℕ → LrM ℕ
  | [], _ => stop .beyond
  | item :: p, moved => do
    let c ← fetch item
    let prod ← prodOf c
    if prod.rhs.length = 0 then
      if maxEpsilon < moved + 1 then stop .tooManyEpsilon
      else if nitems ≠ 0 then do
        let s ← read
        match (s.state cur).epsilonItems[moved]? with
        | none => stop .beyond
        | some eps => do
          update eps fun d => { d with lookaheads := d.lookaheads ∪ c.lookaheads }
          leave p
          moveEpsLoop cur nitems p (moved + 1)
      else do
        write fun s =>
          { s with
            state :=
              Function.update s.state cur { s.state cur with
                epsilonItems := (s.state cur).epsilonItems ++ [item] }
            closureItems := p }
        moveEpsLoop cur nitems p (moved + 1)
    else pure moved

/-- `move_eps` on the memory: the empty productions become items of the state. -/
def moveEps (cur : ℕ) : LrM PUnit := do
  let s ← read
  let moved ← moveEpsLoop cur (s.state cur).epsilonItems.length s.closureItems 0
  if moved ≠ 0 then
    write fun s =>
      { s with
        state :=
          Function.update s.state cur { s.state cur with
            epsilonItems := (s.state cur).epsilonItems.take moved } }
  else pure ⟨⟩

/-! ## Transitions -/

/-- `movedot` on the memory: the dot of an item moves, and the symbol behind it is noted. -/
def movedot (item : ℕ) : LrM PUnit := do
  let c ← fetch item
  let p ← prodOf c
  update item fun c => { c with dotPosn := c.dotPosn + 1, rightOfDot := p.rhs[c.dotPosn + 1]? }

/-- The loop of `lr` that collects the items with the symbol `val` to the right of the dot, from the
first one on: the number of items. -/
def collect (val : ℕ) : List ℕ → LrM ℕ
  | [] => pure 0
  | item :: p => do
    movedot item
    match p with
    | [] => pure 1
    | next :: _ => do
      let c ← fetch next
      if c.rodVal = val then do
        let nitems ← collect val p
        pure (nitems + 1)
      else pure 1

/-- What `state_hash` and `state_cmp` read of the items at pointers. -/
def keys (s : ItemStore) (items : List ℕ) : List (Option (ℕ × ℕ)) :=
  items.map fun item => (s.heap item).map ItemCell.key

/-- `newstate`.  A new state takes the items over from `closure_items`. -/
def newstate (items : List ℕ) : LrM (ℕ × NewState) := do
  if maxKernel < items.length then stop .kernelTooLarge
  else do
    let s ← read
    match (List.range s.nstates).find? fun n => s.keys (s.state n).kernelItems = s.keys items with
    | some n => pure (n, if (s.state n).closed then .closed else .unclosed)
    | none =>
      if maxState ≤ s.nstates then stop .tooManyStates
      else do
        write fun s =>
          { s with
            nstates := s.nstates + 1
            state := Function.update s.state s.nstates ⟨items, [], false⟩
            closureItems := s.closureItems.drop items.length }
        pure (s.nstates, .new)

/-- `add_unfinished`: the state has to be visited, and the set may be full. -/
def addUnfinished (n : ℕ) : LrM PUnit := do
  let s ← read
  if n ∈ s.unfinished then pure ⟨⟩
  else if maxUnfinished ≤ s.unfinished.card then stop .insufficient
  else write fun s => { s with unfinished := insert n s.unfinished }

/-- A state whose lookaheads have grown becomes unfinished. -/
def requeue (n : ℕ) (didSomething : Bool) : LrM PUnit := if didSomething then addUnfinished n else
    pure ⟨⟩

/-- `add_action` or `add_goto`, unless the state has been visited before. -/
def link (cur val next : ℕ) : LrM PUnit := do
  let s ← read
  if (s.state cur).closed then pure ⟨⟩
  else if IsTerm val then
    write fun s =>
      { s with actions := Function.update s.actions cur (⟨val, next⟩ :: s.actions cur) }
  else
    write fun s =>
      { s with gotos := Function.update s.gotos cur (⟨adjVal val, next⟩ :: s.gotos cur) }

/-- A turn of the loop of `merge_lookaheads`, for one item of each state. -/
def mergeItem (dst src : ℕ) : LrM Bool := do
  let d ← fetch dst
  let c ← fetch src
  let p ← prodOf d
  let q ← prodOf c
  if p ≠ q ∨ d.dotPosn ≠ c.dotPosn then stop .mismatch
  else if c.lookaheads ⊆ d.lookaheads then pure false
  else do
    update dst fun d => { d with lookaheads := d.lookaheads ∪ c.lookaheads }
    pure true

/-- `merge_lookaheads` on the memory: merge the lookaheads of new items into those of a state. -/
def mergeLookaheads : List ℕ → List ℕ → LrM Bool
  | dst :: dstItems, src :: srcItems => do
    let didSomething ← mergeItem dst src
    let did ← mergeLookaheads dstItems srcItems
    pure (didSomething || did)
  | [], _ :: _ => stop .beyond
  | _, [] => pure false

/-- `while(--nitems >= 0) freeitem(*first_item++)`: the items of a group are freed one by one. -/
def freeItems : List ℕ → LrM PUnit
  | [] => pure ⟨⟩
  | item :: items => do
    write fun s => { s with closureItems := s.closureItems.tail }
    freeitem item
    freeItems items

/-- The transition of the state `cur` on the symbol `val`, when the dots of `items` have been
moved. -/
def transition (cur val : ℕ) (items : List ℕ) : LrM PUnit := do
  let r ← newstate items
  link cur val r.1
  if r.2 = .new then addUnfinished r.1
  else do
    let s ← read
    let didSomething ← mergeLookaheads (s.state r.1).kernelItems items
    requeue r.1 didSomething
    freeItems items

/-- The loop `while(nclose > 0)` of `lr`.  Every turn takes an item away, so the number of items is
enough fuel. -/
def transitions (cur : ℕ) : ℕ → LrM PUnit
  | 0 => do
    match (← read).closureItems with
    | [] => pure ⟨⟩
    | _ :: _ => stop .endless
  | n + 1 => do
    match (← read).closureItems with
    | [] => pure ⟨⟩
    | item :: p => do
      let c ← fetch item
      match c.rightOfDot with
      | none => stop .null
      | some val => do
        let nitems ← collect val (item :: p)
        transition cur val ((item :: p).take nitems)
        transitions cur n

/-! ## The function `lr` -/

variable (G : Grammar) (F : SetTable)

/-- The items of empty productions of a closure that is not empty. -/
def emptyItems (cur : ℕ) : LrM PUnit := do
  let s ← read
  if s.closureItems = [] then pure ⟨⟩
  else do
    sort
    moveEps cur

/-- A turn of the loop of `lr`: the visit of the state `cur`. -/
def visit (fuel cur : ℕ) : LrM PUnit := do
  closure G F fuel cur
  kclosure cur
  emptyItems cur
  let s ← read
  transitions cur s.closureItems.length
  write fun s => { s with state := Function.update s.state cur { s.state cur with closed := true } }

/-- The loop of `lr`, given up after a number of turns.  `get_unfinished` takes the state with the
smallest number. -/
def lrLoop (fuel : ℕ) : ℕ → LrM PUnit
  | 0 => stop .endless
  | n + 1 => do
    let s ← read
    match (List.range s.nstates).find? fun n => n ∈ s.unfinished with
    | none => pure ⟨⟩
    | some cur => do
      write fun s => { s with unfinished := s.unfinished.erase cur }
      visit G F fuel cur
      lrLoop fuel n

/-- `lr` on the memory, called by `make_parse_tables`. -/
def lr (fuel : ℕ) : LrM PUnit := do
  match G.productions G.goalSymbol with
  | [startProd] => do
    let item ← newitem startProd
    update item fun c => { c with lookaheads := insert eoi c.lookaheads }
    let r ← newstate [item]
    addUnfinished r.1
    lrLoop G F fuel fuel
    let s ← read
    freeRecycledItems s.brk
  | _ => stop .startSymbol

end ItemStore

end Parser
