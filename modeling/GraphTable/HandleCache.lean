/-!
# Caches of open handles

A bounded cache of handles by name, which opens a handle when it is asked for one that it does
not hold, and closes every handle that it lets go of. A handle leaves the cache when there is
no room for it any more (the one whose use is longest ago goes first), when it has expired, or
when it is invalidated. Handles expire at once or never.

The cache keeps account of all handles that were opened and closed. What was opened is closed
or still held.
-/

namespace GraphTable

/-- A cache of handles of type `H`. -/
structure HandleCache (H : Type) where
  /-- How many handles the cache may hold. -/
  capacity : Nat
  capacity_pos : 0 < capacity
  /-- Whether handles expire at once. -/
  expires : Bool
  /-- The handles held, the one used last in front. -/
  entries : List (String × H)
  /-- All handles opened so far, in order. -/
  opened : List H
  /-- All handles closed so far, in order. -/
  closed : List H

namespace HandleCache

variable {H : Type}

/-- The cache that holds nothing yet. -/
def new (capacity : Nat) (h : 0 < capacity) (expires : Bool) : HandleCache H :=
  ⟨capacity, h, expires, [], [], []⟩

/-- The number of handles held. -/
def size (c : HandleCache H) : Nat := c.entries.length

/-- Closes the expired handles, the one used last first. -/
def expire (c : HandleCache H) : HandleCache H :=
  if c.expires then { c with entries := [], closed := c.closed ++ c.entries.map Prod.snd } else c

/-- Takes a new handle in, and lets go of those there is no room for. -/
def takeIn (c : HandleCache H) (name : String) (handle : H) : HandleCache H :=
  let entries := (name, handle) :: c.entries
  { c with
    entries := entries.take c.capacity
    opened := c.opened ++ [handle]
    closed := c.closed ++ (entries.drop c.capacity).map Prod.snd }

/--
The handle of a name: the one held, which counts as used now, or one that is opened. If it
cannot be opened the cache holds what it held.
-/
def get {ε : Type} (c : HandleCache H) (name : String) (openHandle : String → Except ε H) :
    Except ε H × HandleCache H :=
  let c := c.expire
  match c.entries.lookup name with
  | some handle =>
    (.ok handle,
      { c with entries := (name, handle) :: c.entries.filter fun e => e.1 != name })
  | none =>
    match openHandle name with
    | .error e => (.error e, c)
    | .ok handle => (.ok handle, c.takeIn name handle)

/-- Closes the handle of a name, if it is held. -/
def invalidate (c : HandleCache H) (name : String) : HandleCache H :=
  match c.entries.lookup name with
  | none => c
  | some handle =>
    { c with
      entries := c.entries.filter fun e => e.1 != name
      closed := c.closed ++ [handle] }

/-- Closes all handles held, the one whose use is longest ago first. -/
def invalidateAll (c : HandleCache H) : HandleCache H :=
  { c with entries := [], closed := c.closed ++ c.entries.reverse.map Prod.snd }

end HandleCache

end GraphTable
