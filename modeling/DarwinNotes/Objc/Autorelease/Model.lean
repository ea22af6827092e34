import DarwinNotes.Lib.Stack

/-!
# Autorelease pool pages

The pages of one thread: a doubly linked list of blocks of memory, with the hot page
in thread local storage, or a placeholder as long as one pool has been pushed and
nothing was ever put into it. The debugging options are off.

A release that a pop makes runs code of its own, which may push, autorelease and pop.
The thread is therefore a machine with a stack of activations: calls from user code
and pops that are in the middle of `releaseUntil`. `none` is an assertion, a read of a
page that does not exist, or a bad pop.

An `id *` into a page is the page with the index of the slot. Objects and pages are
numbers; `POOL_BOUNDARY` is nil, 0.
-/

namespace DarwinNotes.Objc.Autorelease
open Lib

/-- `sizeof(AutoreleasePoolPage)`: the magic, `next`, the thread, two links, the depth and the mark. -/
def headerSize : Nat := 16 + 8 + 8 + 8 + 8 + 4 + 4

/-- The number of slots in a page of `SIZE` bytes. -/
def capacity (size : Nat) : Nat := (size - headerSize) / 8

/-- The bytes 0xA3 that a slot is overwritten with. -/
def scribble : Nat := 0xA3A3A3A3A3A3A3A3

structure Page where
  /-- the index of the first free slot -/
  next : Nat
  parent : Option Nat
  child : Option Nat
  slots : Nat → Nat

/-- The value of the thread local variable. -/
inductive Tls
  | nil
  | emptyPoolPlaceholder
  | page (address : Nat)
  deriving DecidableEq, Repr

/-- The pages that are allocated, with their number, and the thread local variable. -/
structure Pool where
  pages : Nat → Option Page
  allocated : Nat
  tls : Tls

/-- What `push` returns. -/
inductive Token
  | emptyPoolPlaceholder
  | slot (page index : Nat)
  deriving DecidableEq, Repr

def emptyPool : Pool := ⟨fun _ => none, 0, .nil⟩

def Page.empty (page : Page) : Prop := page.next = 0

instance (page : Page) : Decidable page.empty := inferInstanceAs (Decidable (page.next = 0))

def Page.full (size : Nat) (page : Page) : Prop := page.next = capacity size

instance (size : Nat) (page : Page) : Decidable (page.full size) := inferInstanceAs (Decidable (page.next = capacity size))

def Page.lessThanHalfFull (size : Nat) (page : Page) : Prop := page.next < capacity size / 2

instance (size : Nat) (page : Page) : Decidable (page.lessThanHalfFull size) := inferInstanceAs (Decidable (page.next < capacity size / 2))

/-- What is not decided here: the address of a new page, and what its memory holds. -/
structure Fresh where
  address : Nat
  slots : Nat → Nat

def Pool.setPage (pool : Pool) (address : Nat) (page : Page) : Pool :=
  { pool with pages := Function.update pool.pages address (some page) }

def Pool.setHotPage (pool : Pool) (address : Nat) : Pool := { pool with tls := .page address }

def Pool.hotPage (pool : Pool) : Option Nat :=
  match pool.tls with
  | .page address => some address
  | _ => none

/-- The loop of `coldPage`. -/
def Pool.coldPageFrom (pool : Pool) : Nat → Nat → Option Nat
  | 0, _ => none
  | fuel + 1, address =>
    (pool.pages address).bind fun page =>
      match page.parent with
      | none => some address
      | some parent => pool.coldPageFrom fuel parent

/-- The constructor of a page. -/
def Pool.newPage (pool : Pool) (parent : Option Nat) (fresh : Fresh) : Option Pool :=
  if (pool.pages fresh.address).isSome then none
  else
    match parent with
    | none => some { pool.setPage fresh.address ⟨0, none, none, fresh.slots⟩ with allocated := pool.allocated + 1 }
    | some address =>
      (pool.pages address).bind fun page =>
        if page.child.isSome then none
        else
          let pool' := (pool.setPage fresh.address ⟨0, some address, none, fresh.slots⟩).setPage address
            { page with child := some fresh.address }
          some { pool' with allocated := pool.allocated + 1 }

variable (size : Nat)

def Pool.add (pool : Pool) (address obj : Nat) : Option (Pool × Token) :=
  (pool.pages address).bind fun page =>
    if page.full size then none
    else
      some (pool.setPage address { page with next := page.next + 1, slots := Function.update page.slots page.next obj },
        .slot address page.next)

/-! ## Adding -/

/-- The loop of `autoreleaseFullPage`. -/
def Pool.nonFullPage (fresh : Fresh) : Nat → Pool → Nat → Option (Pool × Nat)
  | 0, _, _ => none
  | fuel + 1, pool, address =>
    (pool.pages address).bind fun page =>
      let next : Option (Pool × Nat) :=
        match page.child with
        | some child => some (pool, child)
        | none => (pool.newPage (some address) fresh).map (·, fresh.address)
      next.bind fun (pool', address') =>
        (pool'.pages address').bind fun page' => if page'.full size then nonFullPage fresh fuel pool' address' else some (pool', address')

def Pool.autoreleaseFullPage (pool : Pool) (obj address : Nat) (fresh : Fresh) : Option (Pool × Token) :=
  (nonFullPage size fresh (pool.allocated + 1) pool address).bind fun (pool', address') => (pool'.setHotPage address').add size address' obj

def Pool.autoreleaseNoPage (pool : Pool) (obj : Nat) (fresh : Fresh) : Option (Pool × Token) :=
  let pushExtraBoundary := decide (pool.tls = .emptyPoolPlaceholder)
  if pushExtraBoundary = false ∧ obj = 0 then
    some ({ pool with tls := .emptyPoolPlaceholder }, .emptyPoolPlaceholder)
  else
    (pool.newPage none fresh).bind fun pool' =>
      let pool' := pool'.setHotPage fresh.address
      if pushExtraBoundary then
        (pool'.add size fresh.address 0).bind fun (pool'', _) => pool''.add size fresh.address obj
      else pool'.add size fresh.address obj

def Pool.autoreleaseFast (pool : Pool) (obj : Nat) (fresh : Fresh) : Option (Pool × Token) :=
  match pool.hotPage with
  | some address =>
    (pool.pages address).bind fun page =>
      if page.full size then pool.autoreleaseFullPage size obj address fresh else pool.add size address obj
  | none => pool.autoreleaseNoPage size obj fresh

/-! ## Removing -/

/-- The inner loop of `releaseUntil`. -/
def Pool.skipEmpty : Nat → Pool → Nat → Option (Pool × Nat)
  | 0, _, _ => none
  | fuel + 1, pool, address =>
    (pool.pages address).bind fun page =>
      if page.empty then page.parent.bind fun parent => skipEmpty fuel (pool.setHotPage parent) parent
      else some (pool, address)

/-- One turn of the loop of `releaseUntil`, up to the release. -/
def Pool.takeNext (pool : Pool) : Option (Pool × Nat) :=
  pool.hotPage.bind fun hot =>
    (skipEmpty (pool.allocated + 1) pool hot).bind fun (pool', address) =>
      (pool'.pages address).map fun page =>
        let next := page.next - 1
        (pool'.setPage address { page with next := next, slots := Function.update page.slots next scribble }, page.slots next)

/-- The first loop of `kill`. -/
def Pool.lastChild (pool : Pool) : Nat → Nat → Option Nat
  | 0, _ => none
  | fuel + 1, address =>
    (pool.pages address).bind fun page =>
      match page.child with
      | some child => pool.lastChild fuel child
      | none => some address

/-- `delete` of a page, with the assertions of the destructor. -/
def Pool.deletePage (pool : Pool) (address : Nat) : Option Pool :=
  (pool.pages address).bind fun page =>
    if page.empty ∧ page.child = none then
      some { pool with pages := Function.update pool.pages address none, allocated := pool.allocated - 1 }
    else none

/-- The second loop of `kill`. -/
def Pool.killBack (last : Nat) : Nat → Pool → Nat → Option Pool
  | 0, _, _ => none
  | fuel + 1, pool, deathptr =>
    (pool.pages deathptr).bind fun dying =>
      let unlinked : Option Pool :=
        match dying.parent with
        | some parent => (pool.pages parent).map fun page => pool.setPage parent { page with child := none }
        | none => some pool
      unlinked.bind fun pool =>
        (pool.deletePage deathptr).bind fun pool =>
          if deathptr = last then some pool else dying.parent.bind fun parent => killBack last fuel pool parent

def Pool.kill (pool : Pool) (address : Nat) : Option Pool :=
  (pool.lastChild (pool.allocated + 1) address).bind fun last => killBack address (pool.allocated + 1) pool last

/-- `popPage` after `releaseUntil`: the hot page is set, and one empty child is kept if the page is at
least half full. -/
def Pool.finishPop (pool : Pool) (address : Nat) : Option Pool :=
  let pool := pool.setHotPage address
  (pool.pages address).bind fun page =>
    match page.child with
    | none => some pool
    | some child =>
      if page.lessThanHalfFull size then pool.kill child
      else
        (pool.pages child).bind fun childPage =>
          match childPage.child with
          | some grandchild => pool.kill grandchild
          | none => some pool

/-- What `pop` works on: the placeholder that was never used, or a page and a slot. -/
inductive Target
  | unused
  | slot (page stop : Nat)
  deriving DecidableEq, Repr

/-- `pop` up to `popPage`. -/
def Pool.popTarget (pool : Pool) (token : Token) : Option Target :=
  let target : Option Target :=
    match token with
    | .emptyPoolPlaceholder =>
      match pool.hotPage with
      | none => some .unused
      | some hot => (pool.coldPageFrom (pool.allocated + 1) hot).map (.slot · 0)
    | .slot page index => some (.slot page index)
  target.bind fun
    | .unused => some .unused
    | .slot address stop =>
      (pool.pages address).bind fun page => if page.slots stop = 0 ∨ stop = 0 ∧ page.parent = none then some (.slot address stop) else none

/-! ## The thread -/

/-- An activation: user code with the tokens it has pushed and not popped, the last one first, or a pop. As
history, how much was below each of the boundaries when it was pushed. -/
inductive Frame
  | user (tokens : List (Token × Nat))
  | pop (target : Target) (height : Nat)

structure Thread where
  pool : Pool
  frames : List Frame

/-- What user code can do. It pops tokens that it has pushed itself. -/
inductive Action
  | push
  | autorelease (obj : Nat)
  | pop (token : Token)
  /-- the end of a release -/
  | finish

/-- What is on the pages from the cold page to this one. -/
def Pool.contentsUpTo (pool : Pool) : Nat → Nat → List Nat
  | 0, _ => []
  | fuel + 1, address =>
    match pool.pages address with
    | none => []
    | some page =>
      (match page.parent with
        | none => []
        | some parent => pool.contentsUpTo fuel parent) ++ (List.range page.next).map page.slots

/-- The contents of the pages from the cold page to the hot page. The placeholder is one boundary. -/
def Pool.contents (pool : Pool) : List Nat :=
  match pool.tls with
  | .nil => []
  | .emptyPoolPlaceholder => [0]
  | .page hot => pool.contentsUpTo (pool.allocated + 1) hot

/-- User code takes a step. -/
def userStep (fresh : Fresh) (pool : Pool) (tokens : List (Token × Nat)) (outer : List Frame) : Action → Option (Thread × Stack.Event Nat)
  | .push =>
    (pool.autoreleaseFast size 0 fresh).map fun (pool', token) =>
      (⟨pool', .user ((token, pool.contents.length) :: tokens) :: outer⟩, .put 0)
  | .autorelease obj =>
    if obj = 0 then none
    else (pool.autoreleaseFast size obj fresh).map fun (pool', _) => (⟨pool', .user tokens :: outer⟩, .put obj)
  | .pop token =>
    match tokens.dropWhile (fun pushed => pushed.1 ≠ token) with
    | [] => none
    | (_, height) :: older => (pool.popTarget token).map fun target => (⟨pool, .pop target height :: .user older :: outer⟩, .silent)
  | .finish =>
    match outer with
    | [] => none
    | _ :: _ => some (⟨pool, outer⟩, .silent)

/-- A pop takes a step: it takes the next entry and releases it if it is an object, or it returns. -/
def popStep (pool : Pool) (target : Target) (height : Nat) (outer : List Frame) : Option (Thread × Stack.Event Nat) :=
  match target with
  | .unused =>
    if pool.tls = .emptyPoolPlaceholder then some (⟨{ pool with tls := .nil }, .pop target height :: outer⟩, .take 0)
    else some (⟨pool, outer⟩, .silent)
  | .slot address stop =>
    (pool.pages address).bind fun page =>
      if page.next ≠ stop then
        pool.takeNext.map fun (pool', obj) =>
          if obj = 0 then (⟨pool', .pop target height :: outer⟩, .take 0)
          else (⟨pool', .user [] :: .pop target height :: outer⟩, .take obj)
      else (pool.finishPop size address).map fun pool' => (⟨pool', outer⟩, .silent)

/-- The next step of the thread. -/
def step (fresh : Fresh) (action : Action) (thread : Thread) : Option (Thread × Stack.Event Nat) :=
  match thread.frames with
  | [] => none
  | .user tokens :: outer => userStep size fresh thread.pool tokens outer action
  | .pop target height :: outer => popStep size thread.pool target height outer

/-- A new thread. -/
def start : Thread := ⟨emptyPool, [.user []]⟩

/-- The runs of a thread through states of some kind, with what happened in them. `malloc` returns memory
that is not in use. -/
inductive Run (size : Nat) (inside : Thread → Prop) : Thread → List (Stack.Event Nat) → Thread → Prop
  | done (thread : Thread) : Run size inside thread [] thread
  | step {thread between after : Thread} {events : List (Stack.Event Nat)} {event : Stack.Event Nat} (fresh : Fresh)
      (action : Action) : Run size inside thread events between → inside between →
      between.pool.pages fresh.address = none → step size fresh action between = some (after, event) →
      Run size inside thread (events ++ [event]) after

end DarwinNotes.Objc.Autorelease
