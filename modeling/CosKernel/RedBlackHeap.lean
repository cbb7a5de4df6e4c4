import CosKernel.RedBlackZipper

/-!
# The red-black tree of coslib

The fields of all node objects of one tree are kept as maps from nodes. A
pointer is null, the shared sentinel `nil`, or a proper node; following a null
pointer is a fault, and so is running out of fuel in one of the recursive
methods. The sentinel has fields of its own: it is created black with key -1,
null links, a null parent and no tree.

Each method below follows the source statement by statement, including the
places where it does more or less than a textbook would: `insert` keeps the
colour of the incoming node when the tree is not empty, and `leave` reattaches
subtrees by comparing keys and not on the side from which they were taken.
-/
namespace CosKernel.RedBlackHeap
open RedBlackZipper

/-- A node object: the sentinel or a proper node. -/
inductive Ref (α : Type) where
  | nil
  | node (a : α)
  deriving DecidableEq, Repr

/-- The tree object with the fields of all its nodes. `tree` tells whether the
node's tree pointer is set (to this tree) or null. -/
structure Heap (α T : Type) where
  key : Ref α → ℤ
  color : Ref α → Color
  parent : Ref α → Option (Ref α)
  link : Ref α → Side → Option (Ref α)
  tree : Ref α → Bool
  obj : α → T
  root : Option (Ref α)

variable {α T : Type} [DecidableEq α]

namespace Heap

def setColor (h : Heap α T) (x : Ref α) (c : Color) : Heap α T :=
  {h with color := Function.update h.color x c}

def setParent (h : Heap α T) (x : Ref α) (p : Option (Ref α)) : Heap α T :=
  {h with parent := Function.update h.parent x p}

def setLink (h : Heap α T) (x : Ref α) (s : Side) (p : Option (Ref α)) : Heap α T :=
  {h with link := Function.update h.link x (Function.update (h.link x) s p)}

def setKey (h : Heap α T) (x : Ref α) (k : ℤ) : Heap α T :=
  {h with key := Function.update h.key x k}

def attachTree (h : Heap α T) (x : Ref α) (t : Bool) : Heap α T :=
  {h with tree := Function.update h.tree x t}

/-- `this->tree->root = p`, a fault when the tree pointer is null. -/
def setRoot (h : Heap α T) (x : Ref α) (p : Option (Ref α)) : Option (Heap α T) :=
  if h.tree x then some {h with root := p} else none

def swapColor (h : Heap α T) (x y : Ref α) : Heap α T :=
  (h.setColor x (h.color y)).setColor y (h.color x)

def whichSide (h : Heap α T) (x n : Ref α) : Side :=
  if h.link x .left = some n then .left
  else if h.link x .right = some n then .right
  else .left

/-- The pointer is compared and not followed, so a null parent gives null. -/
def getBrother (h : Heap α T) (x : Ref α) : Option (Ref α) :=
  match h.parent x with
  | none => none
  | some p => if h.link p .left = some x then h.link p .right else h.link p .left

def attachSide (h : Heap α T) (x : Ref α) (s : Side) (n : Ref α) : Heap α T :=
  let h' := h.setLink x s (some n)
  if n = .nil then h' else h'.setParent n (some x)

/-- The side on which `n` goes below `x`; equal keys go to the right. -/
def keySide (h : Heap α T) (x n : Ref α) : Side := if h.key n < h.key x then .left else .right

def attach (h : Heap α T) (x n : Ref α) : Heap α T := h.attachSide x (h.keySide x n) n

def detachSide (h : Heap α T) (x : Ref α) (s : Side) : Option (Heap α T × Ref α) :=
  if x = .nil then some (h,.nil) else
    match h.link x s with
    | none => none
    | some .nil => some (h,.nil)
    | some (.node a) => some ((h.setParent (.node a) none).setLink x s (some .nil),.node a)

/-- The right link is tested first. The returned node is never used. -/
def detach (h : Heap α T) (x n : Ref α) : Option (Heap α T) :=
  if h.link x .right = some n then (h.detachSide x .right).map Prod.fst
  else if h.link x .left = some n then (h.detachSide x .left).map Prod.fst
  else some h

/-- `searchMax` for the right side and `searchMin` for the left one. -/
def search (h : Heap α T) (s : Side) : ℕ → Ref α → Option (Ref α)
  | 0,_ => none
  | fuel+1,x =>
      match h.link x s with
      | none => none
      | some .nil => some x
      | some (.node a) => search h s fuel (.node a)

/-- `nParent` takes the place of `x` below `nGrand`, or becomes the root. -/
def rehang (h : Heap α T) (nGrand : Option (Ref α)) (x nParent : Ref α) : Option (Heap α T) :=
  match nGrand with
  | some g => do
      let ps := h.whichSide g x
      let (h,_) ← h.detachSide g ps
      some (h.attachSide g ps nParent)
  | none => h.setRoot x (some nParent)

def rotate (h : Heap α T) (x : Ref α) (s : Side) : Option (Heap α T) := do
  let nGrand := h.parent x
  let (h,nParent) ← h.detachSide x s.other
  let (h,nLeaf) ← h.detachSide nParent s
  let h ← h.rehang nGrand x nParent
  let h := h.attachSide nParent s x
  some (if nLeaf = .nil then h else h.attachSide x s.other nLeaf)

def adjustInsert : ℕ → Heap α T → Ref α → Option (Heap α T)
  | 0,_,_ => none
  | fuel+1,h,x =>
      match h.parent x with
      | none => some (h.setColor x .black)
      | some p =>
          if h.color p = .red then do
            let uncle ← h.getBrother p
            let grand ← h.parent p
            if h.color uncle = .red then
              let h := ((h.setColor uncle .black).setColor p .black).setColor grand .red
              adjustInsert fuel h grand
            else
              let (h,cParent) ←
                if h.whichSide p x ≠ h.whichSide grand p then do
                  let h ← h.rotate p (h.whichSide p x).other
                  some (h,x)
                else some (h,p)
              let h ← h.rotate grand (h.whichSide grand cParent).other
              some (h.swapColor grand cParent)
          else some h

/-- The recursive descent of `Node::insert`. -/
def insertBelow : ℕ → Heap α T → Ref α → Ref α → Option (Heap α T)
  | 0,_,_,_ => none
  | fuel+1,h,x,n =>
      let s := h.keySide x n
      match h.link x s with
      | none => none
      | some .nil => adjustInsert fuel (h.attachSide x s n) n
      | some (.node a) => insertBelow fuel h (.node a) n

/-- The recursive descent of `Node::lookup`; the inner `none` is null. -/
def lookupBelow (h : Heap α T) (k : ℤ) : ℕ → Ref α → Option (Option (Ref α))
  | 0,_ => none
  | fuel+1,x =>
      if h.key x = k then some (some x) else
        match h.link x (if k < h.key x then .left else .right) with
        | none => none
        | some .nil => some none
        | some (.node a) => lookupBelow h k fuel (.node a)

/-- `node->link[s]->isBlack()`, a fault when the link is null. -/
def linkBlack (h : Heap α T) (x : Ref α) (s : Side) : Option Bool :=
  (h.link x s).map fun y => h.color y = .black

def linksBlack (h : Heap α T) (x : Ref α) : Option Bool := do
  if ← h.linkBlack x .left then h.linkBlack x .right else some false

/-- The second half of `adjustLeave`, from the test whether the parent is red. -/
def adjustNeighbor (h : Heap α T) (cParent cNeighbor : Ref α) : Option (Heap α T) := do
  let simple ← if h.color cParent = .red then h.linksBlack cNeighbor else some false
  if simple then some (h.swapColor cParent cNeighbor) else do
    let ns := h.whichSide cParent cNeighbor
    let os := ns.other
    let inner ← if ← h.linkBlack cNeighbor os then some false else h.linkBlack cNeighbor ns
    let (h,cNeighbor) ←
      if inner then do
        let o ← h.link cNeighbor os
        let h ← (h.swapColor cNeighbor o).rotate cNeighbor ns
        let m ← h.link cParent ns
        some (h,m)
      else some (h,cNeighbor)
    let n ← h.link cNeighbor ns
    if h.color n = .red then ((h.setColor n .black).swapColor cParent cNeighbor).rotate cParent os
    else some h

def adjustLeave : ℕ → Heap α T → Ref α → Option (Ref α) → Option (Heap α T)
  | 0,_,_,_ => none
  | _+1,h,x,none => some (h.setColor x .black)
  | fuel+1,h,x,some cParent =>
      if h.color x = .red then some (h.setColor x .black) else do
        let s := h.whichSide cParent x
        let cNeighbor ← h.link cParent s.other
        if h.color cNeighbor = .red then do
          let h ← (h.swapColor cParent cNeighbor).rotate cParent s
          let cNeighbor ← h.link cParent s.other
          h.adjustNeighbor cParent cNeighbor
        else do
          let quiet ← if h.color cParent = .black then h.linksBlack cNeighbor else some false
          if quiet then adjustLeave fuel (h.setColor cNeighbor .red) cParent (h.parent cParent)
          else h.adjustNeighbor cParent cNeighbor

/-- `cParent->detach(this)` and `cParent->attach(target)`, or a new root. -/
def replaceChild (h : Heap α T) (cParent : Option (Ref α)) (x target : Ref α) :
    Option (Heap α T) :=
  match cParent with
  | some p => do
      let h ← h.detach p x
      some (h.attach p target)
  | none => h.setRoot x (some target)

/-- `cParent->detach(this)`, or a null root. -/
def unhook (h : Heap α T) (cParent : Option (Ref α)) (x : Ref α) : Option (Heap α T) :=
  match cParent with
  | some p => h.detach p x
  | none => h.setRoot x none

/-- `cParent->attach(target)`, or a new root. -/
def hookUp (h : Heap α T) (cParent : Option (Ref α)) (x target : Ref α) : Option (Heap α T) :=
  match cParent with
  | some p => some (h.attach p target)
  | none => h.setRoot x (some target)

/-- The maximum gives its place to `x` and takes over the children of `x`. -/
def placeMax (h : Heap α T) (x cMax cLeft cRight : Ref α) (mParent : Option (Ref α)) :
    Option (Heap α T) :=
  if cMax ≠ cLeft then do
    let mParent ← mParent
    let h ← h.detach mParent cMax
    let h := h.attach mParent x
    some ((h.attachSide cMax .left cLeft).attachSide cMax .right cRight)
  else some ((h.attachSide cMax .right cRight).attachSide cMax .left x)

/-- The two-children case of `leave` up to its recursive call: the node trades
places and colours with the maximum of its left subtree. -/
def swapWithMax (fuel : ℕ) (h : Heap α T) (x : Ref α) : Option (Heap α T) := do
  let cParent := h.parent x
  let cMax ← h.search .right fuel (← h.link x .left)
  let mParent := h.parent cMax
  let (h,cLeft) ← h.detachSide x .left
  let (h,cRight) ← h.detachSide x .right
  let (h,mLeft) ← h.detachSide cMax .left
  let h ← (h.attach x mLeft).unhook cParent x
  let h ← h.placeMax x cMax cLeft cRight mParent
  let h ← h.hookUp cParent x cMax
  some (h.swapColor x cMax)

def leave : ℕ → Heap α T → Ref α → Option (Heap α T)
  | 0,_,_ => none
  | fuel+1,h,x => do
      let l ← h.link x .left
      let r ← h.link x .right
      if l = .nil ∧ r = .nil then
        match h.parent x with
        | some p => do
            let s := h.whichSide p x
            let h ← h.detach p x
            if h.color x = .black then adjustLeave fuel h (← h.link p s) (some p) else some h
        | none => h.setRoot x none
      else if l = .nil ∨ r = .nil then do
        let cParent := h.parent x
        let (h,cTarget) ← h.detachSide x (if l = .nil then .right else .left)
        let h ← h.replaceChild cParent x cTarget
        if h.color x = .black then adjustLeave fuel h cTarget cParent else some h
      else do
        let h ← swapWithMax fuel h x
        leave fuel h x

/-- `count_size` tests its receiver, so a null link counts as an empty subtree. -/
def countSize (h : Heap α T) : ℕ → Option (Ref α) → Option ℕ
  | _,none => some 0
  | 0,some _ => none
  | fuel+1,some x => do
      let r ← if h.link x .right = some .nil then some 0 else countSize h fuel (h.link x .right)
      let l ← if h.link x .left = some .nil then some 0 else countSize h fuel (h.link x .left)
      some (1+r+l)

/-- The object of the sentinel is never initialised; reading it is a fault. -/
def getObj (h : Heap α T) : Ref α → Option T
  | .nil => none
  | .node a => some (h.obj a)

/-! The methods of `RBTree`. An inner `none` is the null object. -/

def lookup (fuel : ℕ) (h : Heap α T) (k : ℤ) : Option (Option T) :=
  match h.root with
  | none => some none
  | some r => do
      match ← h.lookupBelow k fuel r with
      | none => some none
      | some x => (h.getObj x).map some

/-- `Node::insert` always returns true, and so does `RBTree::insert`. -/
def insert (fuel : ℕ) (h : Heap α T) (a : α) : Option (Heap α T × Bool) := do
  let h := h.attachTree (.node a) true
  match h.root with
  | some r => (insertBelow fuel h r (.node a)).map fun h => (h,true)
  | none => some (({h with root := some (.node a)}).setColor (.node a) .black,true)

def remove (fuel : ℕ) (h : Heap α T) (a : α) : Option (Heap α T × Bool) :=
  if h.root = none ∨ h.tree (.node a) = false then some (h,false) else do
    let h ← leave fuel h (.node a)
    let h := (h.setLink (.node a) .left (some .nil)).setLink (.node a) .right (some .nil)
    some (h.attachTree (.node a) false,true)

/-- `n` takes the place of `x` below the parent of `x`: the comparison of keys
selects the side on which `x` hangs. -/
def fitsBelow (h : Heap α T) (x n : Ref α) : Bool :=
  match h.parent x with
  | none => true
  | some p => h.keySide p n = h.whichSide p x

/-- Every subtree that `leave` reattaches by key goes where nothing hangs. This
is a property of the tree before the call and not a part of the code. -/
def sidesKept (fuel : ℕ) (h : Heap α T) (x : Ref α) : Bool :=
  match h.link x .left,h.link x .right with
  | some .nil,some .nil => true
  | some .nil,some r => h.fitsBelow x r
  | some l,some .nil => h.fitsBelow x l
  | some l,some _ =>
      match h.search .right fuel l with
      | none => false
      | some m => h.fitsBelow x m && (m ≠ l || (match h.link m .left with
          | none => false
          | some n => n = .nil || h.keySide m n = .left))
  | _,_ => false

/-- `max` for the right side and `min` for the left one. -/
def extreme (s : Side) (fuel : ℕ) (h : Heap α T) : Option (Option T) :=
  match h.root with
  | none => some none
  | some r => do
      let x ← h.search s fuel r
      (h.getObj x).map some

def max (fuel : ℕ) (h : Heap α T) : Option (Option T) := extreme .right fuel h

def min (fuel : ℕ) (h : Heap α T) : Option (Option T) := extreme .left fuel h

def empty (h : Heap α T) : Bool := h.root.isNone

def size (fuel : ℕ) (h : Heap α T) : Option ℕ :=
  match h.root with
  | none => some 0
  | some r => h.countSize fuel (some r)

end Heap

end CosKernel.RedBlackHeap
