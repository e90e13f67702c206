import Mathlib.Data.List.Basic
import GraphTable.HandleCache

/-!
# The account of a handle cache

A cache is used again and again: handles are asked for, which may open one or fail to, and handles
are invalidated (`Use`, `run`). Whatever the uses were:

* **What was opened is known from the uses** (`opened_run`): a use opens a handle if it asks for a
  name that no unexpired entry has and opening works, and then it opens this one (`opening?`). So
  the account cannot be put right by leaving a handle out of it.
* **Nothing is lost and nothing is closed twice** (`Sound.account`): the handles opened so far are
  the ones closed so far together with the ones held. Handles leave by four routes, and all of them
  are one step on the account, `Sound.letGo`.
* **Entries stand in the order of their last use** (`Sound.recent`), counted by the names that
  handles were given for (`given`). So no two entries have one name, and the entry that there is no
  room for is the one whose name was given longest ago (`evicted_of_not_mem`).

The order is kept under expiry as well, where it says little, for nothing stays. What asking for a
handle can come to is said once (`get_cases`), and the rest is derived from that.
-/

namespace GraphTable.HandleCache

variable {H ε : Type}

/-! ### Uses -/

/-- What is done with a cache. Asking for a handle comes with what opening it would give. -/
inductive Use (ε H : Type)
  | get (name : String) (opening : Except ε H)
  | invalidate (name : String)
  | invalidateAll

/-- The handles held, in the order of the entries. -/
def held (c : HandleCache H) : List H :=
  c.entries.map Prod.snd

/-- The entries that have not expired. -/
def unexpired (c : HandleCache H) : List (String × H) :=
  if c.expires then [] else c.entries

/-- The handle that a use opens: the one of a name that no unexpired entry has, if opening works. -/
def opening? (c : HandleCache H) : Use ε H → Option H
  | .get name (.ok handle) => if name ∈ c.unexpired.map Prod.fst then none else some handle
  | _ => none

/-- The cache after a use. -/
def after (c : HandleCache H) : Use ε H → HandleCache H
  | .get name opening => (c.get name fun _ => opening).2
  | .invalidate name => c.invalidate name
  | .invalidateAll => c.invalidateAll

/-- The name that a use gives a handle for, if it does. -/
def given? (c : HandleCache H) : Use ε H → Option String
  | .get name opening =>
    match (c.get name fun _ => opening).1 with
    | .ok _ => some name
    | .error _ => none
  | _ => none

/-- The cache after uses, one after the other. -/
def run (c : HandleCache H) (uses : List (Use ε H)) : HandleCache H :=
  uses.foldl after c

/-- The names that uses give handles for, the last one in front. -/
def given (c : HandleCache H) : List (Use ε H) → List String
  | [] => []
  | u :: uses => (c.after u).given uses ++ (c.given? u).toList

/-- The handles that uses open, in order. -/
def openings (c : HandleCache H) : List (Use ε H) → List H
  | [] => []
  | u :: uses => (c.opening? u).toList ++ (c.after u).openings uses

/-! ### Entries of one name -/

theorem ne_of_lookup_eq_none {entries : List (String × H)} {name : String}
    (h : entries.lookup name = none) : ∀ e ∈ entries, e.1 ≠ name := by
  intro e he heq
  have hne := List.lookup_eq_none_iff.mp h e he
  rw [heq] at hne
  simp at hne

/-- A name is found exactly if an entry has it. -/
theorem lookup_eq_none_iff_not_mem {entries : List (String × H)} {name : String} :
    entries.lookup name = none ↔ name ∉ entries.map Prod.fst := by
  refine ⟨fun h hmem => ?_, fun h => List.lookup_eq_none_iff.mpr fun e he => ?_⟩
  · obtain ⟨e, he, hname⟩ := List.mem_map.mp hmem
    exact ne_of_lookup_eq_none h e he hname
  · exact bne_iff_ne.mpr fun heq => h (List.mem_map.mpr ⟨e, he, heq.symm⟩)

/-- An entry that is found is the only one of its name, and the others are left without it. -/
theorem perm_of_lookup {entries : List (String × H)} {name : String} {handle : H}
    (hnames : (entries.map Prod.fst).Nodup) (h : entries.lookup name = some handle) :
    entries.Perm ((name, handle) :: entries.filter fun e => e.1 != name) := by
  induction entries with
  | nil => cases h
  | cons e entries ih =>
    obtain ⟨other, found⟩ := e
    obtain ⟨hnot, hnames⟩ := List.nodup_cons.mp hnames
    by_cases hname : name = other
    · subst hname
      rw [List.lookup_cons_self] at h
      obtain rfl := Option.some.inj h
      have hkept : entries.filter (fun e => e.1 != name) = entries := by
        refine List.filter_eq_self.mpr fun e he => bne_iff_ne.mpr fun heq => hnot ?_
        exact List.mem_map.mpr ⟨e, he, heq⟩
      simp [hkept]
    · rw [List.lookup_cons, beq_false_of_ne hname] at h
      have hrest := ih hnames h
      rw [List.filter_cons_of_pos (by simpa using Ne.symm hname)]
      exact (hrest.cons _).trans (List.Perm.swap _ _ _)

/-! ### What asking for a handle does -/

section Get

variable {c : HandleCache H} {name : String} {handle : H}

/-- Asking for a handle gives the one that is held, or one that is opened for it, or it fails. -/
theorem get_cases (c : HandleCache H) (name : String) (opening : Except ε H) :
    (∃ handle, c.expire.entries.lookup name = some handle ∧
      c.get name (fun _ => opening) = (.ok handle,
        { c.expire with
          entries := (name, handle) :: c.expire.entries.filter fun e => e.1 != name })) ∨
    (∃ handle, c.expire.entries.lookup name = none ∧ opening = .ok handle ∧
      c.get name (fun _ => opening) = (.ok handle, c.expire.takeIn name handle)) ∨
    ∃ error, c.expire.entries.lookup name = none ∧ opening = .error error ∧
      c.get name (fun _ => opening) = (.error error, c.expire) := by
  rcases hlookup : c.expire.entries.lookup name with _ | handle
  · rcases opening with error | handle
    · exact .inr (.inr ⟨error, rfl, rfl, by simp only [get, hlookup]⟩)
    · exact .inr (.inl ⟨handle, rfl, rfl, by simp only [get, hlookup]⟩)
  · exact .inl ⟨handle, rfl, by simp only [get, hlookup]⟩

/-- A handle that cannot be opened leaves the entries that have not expired. -/
theorem entries_of_get_error {d : HandleCache H} {error : ε}
    (h : c.get name (fun _ => .error error) = (.error error, d)) :
    d.entries = c.unexpired ∧ (c.expires = false → d.closed = c.closed) := by
  have hd : d = c.expire := by
    obtain ⟨held, -, hget⟩ | ⟨opened, -, hopening, -⟩ | ⟨_, -, -, hget⟩ :=
      c.get_cases name (.error error)
    · -- what is held is given, whatever opening it would give
      cases (Prod.mk.inj (hget.symm.trans h)).1
    · cases hopening
    · exact (Prod.mk.inj (h.symm.trans hget)).2
  rw [hd, expire, unexpired]
  by_cases hexpires : c.expires = true
  · rw [if_pos hexpires, if_pos hexpires]
    exact ⟨rfl, fun hkeeps => absurd hexpires (by rw [hkeeps]; decide)⟩
  · rw [if_neg hexpires, if_neg hexpires]
    exact ⟨rfl, fun _ => rfl⟩

/-- A handle that is given is held under its name, in front of all others. -/
theorem head?_of_get_ok {d : HandleCache H} {opening : Except ε H}
    (h : c.get name (fun _ => opening) = (.ok handle, d)) :
    d.entries.head? = some (name, handle) := by
  obtain ⟨held, -, hget⟩ | ⟨opened, -, -, hget⟩ | ⟨error, -, -, hget⟩ :=
    c.get_cases name opening
  all_goals obtain ⟨hgiven, rfl⟩ := Prod.mk.inj (h.symm.trans hget)
  · obtain rfl := Except.ok.inj hgiven
    rfl
  · obtain rfl := Except.ok.inj hgiven
    -- there is room for one entry at least
    rw [takeIn, List.head?_take, if_neg (Nat.ne_of_gt c.expire.capacity_pos)]
    rfl
  · cases hgiven

/-- No use changes the limits of a cache. -/
theorem limits_after (c : HandleCache H) (u : Use ε H) :
    (c.after u).capacity = c.capacity ∧ (c.after u).expires = c.expires := by
  have hexpire : c.expire.capacity = c.capacity ∧ c.expire.expires = c.expires := by
    unfold expire
    split <;> exact ⟨rfl, rfl⟩
  rcases u with ⟨name, opening⟩ | name | -
  · rw [after]
    obtain ⟨held, -, hget⟩ | ⟨opened, -, -, hget⟩ | ⟨error, -, -, hget⟩ :=
      c.get_cases name opening
    all_goals
      rw [hget]
      exact hexpire
  · rw [after, invalidate]
    split <;> exact ⟨rfl, rfl⟩
  · exact ⟨rfl, rfl⟩

theorem limits_run (c : HandleCache H) (uses : List (Use ε H)) :
    (c.run uses).capacity = c.capacity ∧ (c.run uses).expires = c.expires := by
  induction uses generalizing c with
  | nil => exact ⟨rfl, rfl⟩
  | cons u uses ih =>
    obtain ⟨hcapacity, hexpires⟩ := c.limits_after u
    rw [← hcapacity, ← hexpires]
    exact ih (c.after u)

end Get

/-- Invalidating a name lets go of its entry, and of no other. -/
theorem entries_invalidate (c : HandleCache H) (name : String) :
    (c.invalidate name).entries = c.entries.filter fun e => e.1 != name := by
  unfold invalidate
  split
  · rename_i hlookup
    have hother : ∀ e ∈ c.entries, (e.1 != name) = true := fun e he =>
      bne_iff_ne.mpr (ne_of_lookup_eq_none hlookup e he)
    exact (List.filter_eq_self.mpr hother).symm
  · rfl

/-! ### What uses open -/

theorem entries_expire (c : HandleCache H) : c.expire.entries = c.unexpired := by
  unfold expire unexpired
  split <;> rfl

theorem opened_expire (c : HandleCache H) : c.expire.opened = c.opened := by
  unfold expire
  split <;> rfl

/-- A use opens the handle of a name that it misses, if opening works, and no other. -/
theorem opened_after (c : HandleCache H) (u : Use ε H) :
    (c.after u).opened = c.opened ++ (c.opening? u).toList := by
  rcases u with ⟨name, opening⟩ | name | -
  · have hheld : c.expire.entries.lookup name = none ↔ name ∉ c.unexpired.map Prod.fst := by
      rw [← entries_expire]
      exact lookup_eq_none_iff_not_mem
    rw [after]
    obtain ⟨held, hlookup, hget⟩ | ⟨handle, hlookup, rfl, hget⟩ | ⟨error, -, rfl, hget⟩ :=
      c.get_cases name opening
    · have hmem : name ∈ c.unexpired.map Prod.fst := by
        refine Decidable.of_not_not fun hmiss => ?_
        rw [hheld.mpr hmiss] at hlookup
        cases hlookup
      rw [hget, opened_expire]
      -- what opening would give is not asked for
      rcases opening with error | handle
      · exact (List.append_nil c.opened).symm
      · rw [opening?, if_pos hmem]
        exact (List.append_nil c.opened).symm
    · rw [hget, takeIn, opened_expire, opening?, if_neg (hheld.mp hlookup)]
      rfl
    · rw [hget, opened_expire]
      exact (List.append_nil c.opened).symm
  · rw [after, invalidate]
    split <;> exact (List.append_nil c.opened).symm
  · exact (List.append_nil c.opened).symm

/-- The handles that uses open come after those opened before, in order. -/
theorem opened_run (c : HandleCache H) (uses : List (Use ε H)) :
    (c.run uses).opened = c.opened ++ c.openings uses := by
  induction uses generalizing c with
  | nil => exact (List.append_nil c.opened).symm
  | cons u uses ih =>
    calc ((c.after u).run uses).opened
        = (c.after u).opened ++ (c.after u).openings uses := ih (c.after u)
      _ = c.opened ++ c.openings (u :: uses) := by
        rw [opened_after, openings, List.append_assoc]

/-! ### What every use keeps -/

/--
The account is right, and the entries stand in the order in which their names were given handles
for the last time.
-/
structure Sound (c : HandleCache H) (given : List String) : Prop where
  account : c.opened.Perm (c.closed ++ c.held)
  size_le : c.size ≤ c.capacity
  known : ∀ e ∈ c.entries, e.1 ∈ given
  recent : c.entries.Pairwise fun a b => given.idxOf a.1 < given.idxOf b.1

/-- Closing the handles of the entries that are let go keeps an account. -/
private theorem account_letGo {opened closed : List H} {entries gone kept : List (String × H)}
    (h : opened.Perm (closed ++ entries.map Prod.snd)) (hall : entries.Perm (gone ++ kept)) :
    opened.Perm (closed ++ gone.map Prod.snd ++ kept.map Prod.snd) := by
  refine h.trans ?_
  rw [List.append_assoc, ← List.map_append]
  exact (hall.map Prod.snd).append_left closed

namespace Sound

variable {c : HandleCache H} {given : List String}

theorem new (capacity : Nat) (hpos : 0 < capacity) (expires : Bool) :
    Sound (HandleCache.new capacity hpos expires : HandleCache H) [] :=
  ⟨.nil, Nat.zero_le _, by simp [HandleCache.new], .nil⟩

/-- No two entries have one name. -/
theorem names_nodup (h : Sound c given) : (c.entries.map Prod.fst).Nodup := by
  refine List.pairwise_map.mpr (h.recent.imp fun hlt heq => ?_)
  rw [heq] at hlt
  exact Nat.lt_irrefl _ hlt

/-- Letting go of some entries and closing their handles keeps all of it. -/
theorem letGo (h : Sound c given) (gone : List (String × H)) {kept : List (String × H)}
    (hkept : kept.Sublist c.entries) (hall : c.entries.Perm (gone ++ kept)) :
    Sound { c with entries := kept, closed := c.closed ++ gone.map Prod.snd } given where
  account := account_letGo h.account hall
  size_le := Nat.le_trans hkept.length_le h.size_le
  known := fun e he => h.known e (hkept.subset he)
  recent := h.recent.sublist hkept

theorem expire (h : Sound c given) : Sound c.expire given := by
  unfold HandleCache.expire
  split
  · exact h.letGo c.entries (List.nil_sublist _) (by simp)
  · exact h

theorem invalidateAll (h : Sound c given) : Sound c.invalidateAll given :=
  h.letGo c.entries.reverse (List.nil_sublist _)
    (by rw [List.append_nil]; exact (List.reverse_perm c.entries).symm)

theorem invalidate (h : Sound c given) (name : String) : Sound (c.invalidate name) given := by
  unfold HandleCache.invalidate
  split
  · exact h
  · rename_i handle hlookup
    exact h.letGo [(name, handle)] List.filter_sublist
      (perm_of_lookup h.names_nodup hlookup)

/-- The entry of a name that is given now is in front, before all others. -/
private theorem recent_cons {given : List String} {name : String} {handle : H}
    {others : List (String × H)} (hother : ∀ e ∈ others, e.1 ≠ name)
    (h : others.Pairwise fun a b => given.idxOf a.1 < given.idxOf b.1) :
    ((name, handle) :: others).Pairwise fun a b =>
      (name :: given).idxOf a.1 < (name :: given).idxOf b.1 := by
  have hidx : ∀ e ∈ others, (name :: given).idxOf e.1 = given.idxOf e.1 + 1 := fun e he =>
    List.idxOf_cons_ne _ (hother e he).symm
  refine List.pairwise_cons.mpr ⟨fun e he => ?_, ?_⟩
  · rw [List.idxOf_cons_self, hidx e he]
    exact Nat.succ_pos _
  · refine h.imp_of_mem fun ha hb hlt => ?_
    rw [hidx _ ha, hidx _ hb]
    exact Nat.succ_lt_succ hlt

/-- A handle that is held is given again, and its entry comes to the front. -/
theorem again (h : Sound c given) {name : String} {handle : H}
    (hlookup : c.entries.lookup name = some handle) :
    Sound { c with entries := (name, handle) :: c.entries.filter fun e => e.1 != name }
      (name :: given) := by
  have hperm := perm_of_lookup h.names_nodup hlookup
  refine ⟨?_, ?_, fun e he => ?_, ?_⟩
  · exact h.account.trans ((hperm.map Prod.snd).append_left c.closed)
  · exact Nat.le_trans (Nat.le_of_eq hperm.length_eq.symm) h.size_le
  · rcases List.mem_cons.mp he with rfl | he
    · exact List.mem_cons_self
    · exact List.mem_cons_of_mem _ (h.known e (List.mem_filter.mp he).1)
  · refine recent_cons (fun e he => ?_) (h.recent.sublist List.filter_sublist)
    exact bne_iff_ne.mp (List.mem_filter.mp he).2

/-- A handle that was opened is given, and what there is no room for is let go. -/
theorem takeIn (h : Sound c given) {name : String} (hnew : ∀ e ∈ c.entries, e.1 ≠ name)
    (handle : H) : Sound (c.takeIn name handle) (name :: given) := by
  have hsub := List.take_sublist c.capacity ((name, handle) :: c.entries)
  refine ⟨?_, ?_, fun e he => ?_, (recent_cons hnew h.recent).sublist hsub⟩
  · -- the new entry comes in, and then those without room leave
    have hin : (c.opened ++ [handle]).Perm
        (c.closed ++ ((name, handle) :: c.entries).map Prod.snd) :=
      (List.perm_append_singleton handle c.opened).trans
        ((h.account.cons handle).trans List.perm_middle.symm)
    have hsplit := List.take_append_drop c.capacity ((name, handle) :: c.entries)
    exact account_letGo hin ((List.Perm.of_eq hsplit.symm).trans List.perm_append_comm)
  · exact List.length_take_le _ _
  · rcases List.mem_cons.mp (hsub.subset he) with rfl | he
    · exact List.mem_cons_self
    · exact List.mem_cons_of_mem _ (h.known e he)

theorem after (h : Sound c given) (u : Use ε H) :
    Sound (c.after u) ((c.given? u).toList ++ given) := by
  cases u with
  | invalidate name => exact h.invalidate name
  | invalidateAll => exact h.invalidateAll
  | get name opening =>
    have hc := h.expire
    rw [HandleCache.after, given?]
    obtain ⟨handle, hlookup, hget⟩ | ⟨handle, hlookup, -, hget⟩ | ⟨error, -, -, hget⟩ :=
      c.get_cases name opening
    · rw [hget]
      exact hc.again hlookup
    · rw [hget]
      exact hc.takeIn (ne_of_lookup_eq_none hlookup) handle
    · rw [hget]
      exact hc

/-- Uses keep the account and the order of the entries. -/
theorem run (h : Sound c given) (uses : List (Use ε H)) :
    Sound (c.run uses) (c.given uses ++ given) := by
  induction uses generalizing c given with
  | nil => exact h
  | cons u uses ih =>
    rw [HandleCache.given, List.append_assoc]
    exact ih (h.after u)

end Sound

/-! ### What leaves for want of room -/

/--
If a cache has no room for an entry when it takes a new one in, it was full, and the entry was the
last one.
-/
private theorem eq_concat_of_not_mem {c : HandleCache H} (hsize : c.size ≤ c.capacity)
    {name : String} {handle : H} {e : String × H} (he : e ∈ c.entries)
    (hgone : e ∉ (c.takeIn name handle).entries) :
    c.size = c.capacity ∧ ∃ front, c.entries = front ++ [e] ∧
      (c.takeIn name handle).entries = (name, handle) :: front ∧
      (c.takeIn name handle).closed = c.closed ++ [e.2] := by
  obtain ⟨front, last, hentries⟩ :=
    (List.eq_nil_or_concat c.entries).resolve_left (List.ne_nil_of_mem he)
  rw [List.concat_eq_append] at hentries
  have hlen : c.entries.length = front.length + 1 := by rw [hentries]; simp
  have hfull : c.size = c.capacity := by
    -- otherwise there was room for all entries
    refine Nat.le_antisymm hsize (Nat.le_of_not_lt fun hroom => hgone ?_)
    have hall : (c.takeIn name handle).entries = (name, handle) :: c.entries :=
      List.take_of_length_le hroom
    rw [hall]
    exact List.mem_cons_of_mem _ he
  have hcapacity : c.capacity = ((name, handle) :: front).length := by
    rw [← hfull, size, hlen, List.length_cons]
  have hsplit : (name, handle) :: c.entries = ((name, handle) :: front) ++ [last] := by
    rw [hentries, List.cons_append]
  have hkept : (c.takeIn name handle).entries = (name, handle) :: front := by
    change ((name, handle) :: c.entries).take c.capacity = _
    rw [hsplit, hcapacity, List.take_left]
  have hclosed : (c.takeIn name handle).closed = c.closed ++ [last.2] := by
    change c.closed ++ (((name, handle) :: c.entries).drop c.capacity).map Prod.snd = _
    rw [hsplit, hcapacity, List.drop_left]
    rfl
  have hlast : e = last := by
    rw [hkept] at hgone
    rw [hentries] at he
    rcases List.mem_append.mp he with he | he
    · exact absurd (List.mem_cons_of_mem _ he) hgone
    · exact List.mem_singleton.mp he
  subst hlast
  exact ⟨hfull, front, hentries, hkept, hclosed⟩

/--
An entry that asking for a handle removes although entries do not expire is the one whose name was
given longest ago. It is removed for want of room, its handle is closed, and the others stay.
-/
theorem evicted_of_not_mem {c : HandleCache H} {given : List String} (h : Sound c given)
    (hkeeps : c.expires = false) {name : String} {opening : Except ε H} {e : String × H}
    (he : e ∈ c.entries) (hgone : e ∉ (c.after (.get name opening)).entries) :
    c.size = c.capacity ∧ (c.after (.get name opening)).closed = c.closed ++ [e.2] ∧
      ∀ d ∈ c.entries, d ≠ e →
        d ∈ (c.after (.get name opening)).entries ∧ given.idxOf d.1 < given.idxOf e.1 := by
  have hexpire : c.expire = c := by rw [expire, hkeeps]; rfl
  rw [after] at hgone ⊢
  obtain ⟨handle, hlookup, hget⟩ | ⟨handle, -, -, hget⟩ | ⟨error, -, -, hget⟩ :=
    c.get_cases name opening
  · -- the entry of a handle that is given again only moves to the front
    rw [hget, hexpire] at hgone
    rw [hexpire] at hlookup
    exact absurd ((perm_of_lookup h.names_nodup hlookup).mem_iff.mp he) hgone
  · rw [hget, hexpire] at hgone ⊢
    obtain ⟨hfull, front, hentries, hkept, hclosed⟩ := eq_concat_of_not_mem h.size_le he hgone
    refine ⟨hfull, hclosed, fun d hd hne => ?_⟩
    rw [hentries] at hd
    have hfront : d ∈ front :=
      (List.mem_append.mp hd).resolve_right fun hd => hne (List.mem_singleton.mp hd)
    have hrecent := h.recent
    rw [hentries] at hrecent
    refine ⟨hkept ▸ List.mem_cons_of_mem _ hfront, ?_⟩
    exact (List.pairwise_append.mp hrecent).2.2 d hfront e (List.mem_singleton_self e)
  · rw [hget, hexpire] at hgone
    exact absurd he hgone

/-! ### Whole runs -/

/--
Whatever a new cache was used for: the handles opened are those that opening gave for the names
that were missed, in order, and they are the handles closed together with those held. If no handle
was opened twice, none is closed twice, and none of those held is closed. No two entries have one
name, and there are at most as many as the capacity. A handle that is given is held in front of
the others. A handle that cannot be opened leaves all entries that have not expired, and closes
none of them. If entries do not expire, the one that has to go is the one whose name was given
longest ago. Invalidating a name lets go of its entry and of no other. When all is let go in the
end, every handle that was opened is closed once.
-/
theorem conserved_run (capacity : Nat) (hpos : 0 < capacity) (expires : Bool)
    (uses : List (Use ε H)) :
    let start : HandleCache H := .new capacity hpos expires
    let c := start.run uses
    c.opened = start.openings uses ∧
    c.opened.Perm (c.closed ++ c.held) ∧
    (c.opened.Nodup → c.closed.Nodup ∧ c.held.Nodup ∧ ∀ x ∈ c.closed, x ∉ c.held) ∧
    (c.entries.map Prod.fst).Nodup ∧
    c.size ≤ capacity ∧
    (∀ (name : String) (opening : Except ε H) (handle : H) (d : HandleCache H),
      c.get name (fun _ => opening) = (.ok handle, d) →
        d.entries.head? = some (name, handle)) ∧
    (∀ (name : String) (error : ε) (d : HandleCache H),
      c.get name (fun _ => .error error) = (.error error, d) →
        d.entries = c.unexpired ∧ (expires = false → d.closed = c.closed)) ∧
    (expires = false → ∀ (name : String) (opening : Except ε H), ∀ e ∈ c.entries,
      e ∉ (c.after (.get name opening)).entries →
        c.size = capacity ∧ (c.after (.get name opening)).closed = c.closed ++ [e.2] ∧
        ∀ d ∈ c.entries, d ≠ e → d ∈ (c.after (.get name opening)).entries ∧
          (start.given uses).idxOf d.1 < (start.given uses).idxOf e.1) ∧
    (∀ name : String,
      (c.invalidate name).entries = c.entries.filter fun e => e.1 != name) ∧
    c.invalidateAll.held = [] ∧ c.invalidateAll.closed.Perm c.opened := by
  intro start c
  have hsound : Sound c (start.given uses) := by
    have hrun := (Sound.new capacity hpos expires).run uses
    rwa [List.append_nil] at hrun
  obtain ⟨hcapacity, hexpires⟩ : c.capacity = capacity ∧ c.expires = expires :=
    start.limits_run uses
  refine ⟨start.opened_run uses, hsound.account, fun hnodup => ?_, hsound.names_nodup, ?_,
    fun name opening handle d hget => head?_of_get_ok hget, ?_, ?_,
    c.entries_invalidate, rfl, ?_⟩
  · obtain ⟨hclosed, hheld, hapart⟩ := List.nodup_append.mp (hsound.account.nodup hnodup)
    exact ⟨hclosed, hheld, fun x hx hin => hapart x hx x hin rfl⟩
  · exact hcapacity ▸ hsound.size_le
  · intro name error d hget
    rw [← hexpires]
    exact entries_of_get_error hget
  · intro hkeeps name opening e he hgone
    rw [← hcapacity]
    exact evicted_of_not_mem hsound (hexpires.trans hkeeps) he hgone
  · have hend := hsound.invalidateAll.account
    rw [show c.invalidateAll.held = [] from rfl, List.append_nil] at hend
    exact hend.symm

/-- A cache with room for two handles, which holds `a` and `b`; `a` was asked for once more. -/
def twoTables : HandleCache Nat :=
  run (.new 2 Nat.two_pos false)
    [.get "a" (.ok 1), .get "b" (.ok 2), .get "a" (.error "gone" : Except String Nat)]

/-- A third handle takes the place of the one that was asked for longest ago. -/
theorem conserved_twoTables :
    0 < 2 ∧ twoTables.opened = [1, 2] ∧ twoTables.opened.Nodup ∧ twoTables.held.Nodup ∧
      ("b", 2) ∈ twoTables.entries ∧
      ("b", 2) ∉ (twoTables.after (.get "c" (.ok 3 : Except String Nat))).entries ∧
      (twoTables.after (.get "c" (.ok 3 : Except String Nat))).closed = [2] := by
  have hb : ("b", 2) ∈ twoTables.entries := by decide +kernel
  have hgone : ("b", 2) ∉ (twoTables.after (.get "c" (.ok 3 : Except String Nat))).entries := by
    decide +kernel
  have hnodup : twoTables.opened.Nodup := by decide +kernel
  obtain ⟨hopened, -, honce, -, -, -, -, hevict, -⟩ := conserved_run 2 Nat.two_pos false
    [.get "a" (.ok 1), .get "b" (.ok 2), .get "a" (.error "gone" : Except String Nat)]
  exact ⟨Nat.two_pos, hopened.trans (by decide +kernel), hnodup, (honce hnodup).2.1, hb, hgone,
    (hevict rfl "c" (.ok 3) ("b", 2) hb hgone).2.1⟩

end GraphTable.HandleCache
