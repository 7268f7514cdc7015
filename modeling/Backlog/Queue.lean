import Backlog.Registry
import Backlog.Table
import Backlog.Ticket

/-!
# Queues

A queue holds the numbers of the tickets that wait, in run order, and an index of them by
id. The tickets themselves live elsewhere, so every operation is given the tickets as they
are now. A ticket stays in the index under the id it was pushed with.

The order stands for a set that is searched by comparison. Where a ticket enters or leaves it
by its place, in `insert` and `remove`, the tickets are compared as they are now. As long as
the order stands by these places, every such search comes to the same. Otherwise a search may
miss a ticket that `remove` takes out, and end in another place than `insert` has. The contract
of a queue forbids clients to change the priority or the age of a queued ticket. It does not
forbid another id, which disturbs the order only among tickets that share all else.
-/

namespace Backlog

structure Queue where
  order : List Nat := []
  index : Table String Nat := .empty
  closed : Bool := false
  deriving Inhabited

namespace Queue

variable (ticket : Nat → Ticket)

/-- The order of two ticket numbers. -/
def rank (a b : Nat) : Ordering := (ticket a).queueOrder (ticket b)

def size (q : Queue) : Nat := q.order.length

def find? (q : Queue) (id : String) : Option Nat := q.index.find? id

/-- An open queue takes an id it does not hold. -/
def accepts (q : Queue) (id : String) : Bool := !q.closed && !q.index.contains id

/-- The ticket takes its place in the order, unless another ticket has the same place, and its
entry in the index. -/
def insert (q : Queue) (t : Nat) : Queue :=
  { q with
    order := insertOrdered (rank ticket) t q.order
    index := q.index.insert (ticket t).id t }

/-- The first ticket in run order that may run. -/
def ready? (q : Queue) (now : Int) (network : Bool) (busy : Names) : Option Nat :=
  q.order.find? fun t => (ticket t).runnable now network busy

/-- A ticket leaves together with the index entry of the id it has now. -/
def take (q : Queue) (t : Nat) : Queue :=
  { q with order := q.order.erase t, index := q.index.erase (ticket t).id }

/-- The ticket that the index holds under the id, and the queue without that entry and
without all that have the ticket's place in the order, where the ticket is sought by it. -/
def remove (q : Queue) (id : String) : Option (Nat × Queue) :=
  match q.find? id with
  | none => none
  | some t => some (t, { q with
      order := q.order.filter fun u => rank ticket u t ≠ .eq
      index := q.index.erase id })

theorem remove_eq_some {ticket : Nat → Ticket} {q q' : Queue} {id : String} {t : Nat} :
    q.remove ticket id = some (t, q') ↔ q.find? id = some t ∧ q' = { q with
      order := q.order.filter fun u => rank ticket u t ≠ .eq
      index := q.index.erase id } := by
  unfold remove
  cases q.find? id with
  | none => simp
  | some u =>
    simp only [Option.some.injEq, Prod.mk.injEq]
    constructor
    · rintro ⟨rfl, rfl⟩
      exact ⟨rfl, rfl⟩
    · rintro ⟨rfl, rfl⟩
      exact ⟨rfl, rfl⟩

/-- The ticket waits for its deadline and for nothing else. -/
def waits (t : Ticket) (now : Int) (network : Bool) (busy : Names) : Bool :=
  t.early now && !t.offline network && !t.blocked busy

/-- The first deadline among the tickets that wait for nothing else. -/
def nextTime (q : Queue) (now : Int) (network : Bool) (busy : Names) : Option Int :=
  ((q.order.map ticket).filter fun t => waits t now network busy).filterMap (·.notBefore) |>.min?

/-- A member of the group waits at least until the deadline. -/
def delayMember (group : String) (until? : Option Int) (t : Ticket) : Ticket :=
  if t.group = some group then { t with notBefore := later t.notBefore until? } else t

/-- The tickets after all queued members of the group were made to wait. -/
def delayGroup (q : Queue) (tickets : Registry Ticket) (group : String) (until? : Option Int) :
    Registry Ticket :=
  q.order.foldl (fun m t => m.modify t (delayMember group until?)) tickets

def close (q : Queue) : Queue := { q with closed := true }

end Queue

end Backlog
