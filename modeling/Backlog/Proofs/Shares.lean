import Backlog.World.Step
import Mathlib.Data.List.Forall2

/-!
# Shares of a process

Several clients may use one process. Each knows what it made by the order in which it made it,
as it would alone; in the process the same things have other numbers, which its share keeps.
Two things are alike along a share if they agree except where they hold such numbers, and there
the number in the one stands where the number in the other says. Sessions and loggers do not
matter to this.
-/

theorem Option.Rel.imp {α β : Type} {R S : α → β → Prop} (hrs : ∀ a b, R a b → S a b)
    {a : Option α} {b : Option β} (h : Option.Rel R a b) : Option.Rel S a b := by
  cases h with
  | some h => exact .some (hrs _ _ h)
  | none => exact .none

namespace Backlog

/-- The number `n` stands at place `k` of the list. -/
def Listed (l : List Nat) (n k : Nat) : Prop := l[k]? = some n

/-- The list picks `k` of the numbers below `n`, in ascending order. -/
structure Picks (l : List Nat) (n k : Nat) : Prop where
  length : l.length = k
  ascending : l.Pairwise (· < ·)
  below : ∀ i ∈ l, i < n

/-- The numbers from `n` up to `n'`, which were given out since, join the list. -/
def joined (l : List Nat) (n n' : Nat) : List Nat := l ++ List.range' n (n' - n)

section
variable {l l' : List Nat} {n n' i j k a b : Nat}

theorem Listed.mem (h : Listed l n k) : n ∈ l := List.mem_of_getElem? h

theorem Listed.unique (h : Listed l n k) (h' : Listed l i k) : n = i :=
  Option.some.inj (h.symm.trans h')

theorem Listed.mono (h : Listed l n k) (hl : l <+: l') : Listed l' n k := by
  obtain ⟨hk, rfl⟩ := List.getElem?_eq_some_iff.mp h
  exact List.prefix_iff_getElem?.mp hl k hk

/-- One more number takes the next place. -/
theorem listed_concat : Listed (l ++ [n]) i k ↔ Listed l i k ∨ i = n ∧ k = l.length := by
  simp only [Listed, List.getElem?_append]
  split
  · have : k ≠ l.length := by omega
    simp [this]
  · have hk : l[k]? = none := List.getElem?_eq_none (by omega)
    by_cases he : k = l.length
    · subst he
      simp [eq_comm]
    · have : k - l.length ≠ 0 := by omega
      simp [hk, he, this]

namespace Picks

theorem listed (h : Picks l n k) (hi : i < k) : ∃ j, Listed l j i :=
  ⟨_, List.getElem?_eq_getElem (h.length ▸ hi)⟩

theorem lt_left (h : Picks l n k) (hs : Listed l i j) : i < n := h.below i hs.mem

theorem lt_right (h : Picks l n k) (hs : Listed l i j) : j < k :=
  h.length ▸ (List.getElem?_eq_some_iff.mp hs).1

/-- Places and numbers ascend together. -/
theorem lt_of_lt (h : Picks l n k) (hi : Listed l i a) (hj : Listed l j b) (hab : a < b) :
    i < j := by
  obtain ⟨ha, rfl⟩ := List.getElem?_eq_some_iff.mp hi
  obtain ⟨hb, rfl⟩ := List.getElem?_eq_some_iff.mp hj
  exact List.pairwise_iff_getElem.mp h.ascending a b ha hb hab

theorem injective (h : Picks l n k) (hi : Listed l i a) (hj : Listed l i b) : a = b := by
  rcases Nat.lt_trichotomy a b with hab | hab | hab
  · exact absurd (h.lt_of_lt hi hj hab) (Nat.lt_irrefl i)
  · exact hab
  · exact absurd (h.lt_of_lt hj hi hab) (Nat.lt_irrefl i)

theorem eq_iff (h : Picks l n k) (hi : Listed l i a) (hj : Listed l j b) : i = j ↔ a = b := by
  constructor
  · rintro rfl
    exact h.injective hi hj
  · rintro rfl
    exact hi.unique hj

/-- What is compared by number compares as the places do. -/
theorem compare_eq (h : Picks l n k) (hi : Listed l i a) (hj : Listed l j b) :
    compare i j = compare a b := by
  rcases Nat.lt_trichotomy a b with hab | rfl | hab
  · rw [Nat.compare_eq_lt.mpr hab, Nat.compare_eq_lt.mpr (h.lt_of_lt hi hj hab)]
  · obtain rfl := hi.unique hj
    rw [Nat.compare_eq_eq.mpr rfl, Nat.compare_eq_eq.mpr rfl]
  · rw [Nat.compare_eq_gt.mpr hab, Nat.compare_eq_gt.mpr (h.lt_of_lt hj hi hab)]

/-- Others may take numbers. -/
theorem mono (h : Picks l n k) (hn : n ≤ n') : Picks l n' k :=
  { h with below := fun i hi => Nat.lt_of_lt_of_le (h.below i hi) hn }

theorem push (h : Picks l n k) : Picks (l ++ [n]) (n + 1) (k + 1) where
  length := by simp [h.length]
  ascending := by
    refine List.pairwise_append.mpr ⟨h.ascending, List.pairwise_singleton .., fun i hi j hj => ?_⟩
    rw [List.mem_singleton.mp hj]
    exact h.below i hi
  below i hi := by
    rcases List.mem_append.mp hi with hi | hi
    · exact Nat.lt_succ_of_lt (h.below i hi)
    · rw [List.mem_singleton.mp hi]
      exact Nat.lt_succ_self n

end Picks

/-- The client's list grew from `l` while the numbers below `n'` were given out, and picks as
many of them as it would alone. -/
structure Charts (l : List Nat) (n : Nat) (l' : List Nat) (n' k : Nat) : Prop
    extends Picks l' n' k where
  le : n ≤ n'
  grown : l' = joined l n n'

theorem Picks.charts (h : Picks l n k) : Charts l n l n k :=
  { h with le := Nat.le_refl n, grown := by simp [joined] }

theorem Charts.push (h : Charts l n l' n' k) : Charts l n (l' ++ [n']) (n' + 1) (k + 1) where
  toPicks := h.toPicks.push
  le := Nat.le_succ_of_le h.le
  grown := by
    rw [h.grown, joined, joined, Nat.succ_sub h.le, List.range'_1_concat, Nat.add_sub_cancel' h.le,
      List.append_assoc]

/-- What joined the list was given out since. -/
theorem Charts.mem (h : Charts l n l' n' k) (hi : i ∈ l') : i ∈ l ∨ n ≤ i := by
  rw [h.grown, joined, List.mem_append] at hi
  exact hi.imp_right fun hi => (List.mem_range'_1.mp hi).1

/-- What joins the list of one client is on no other's. -/
theorem Charts.disjoint {m : List Nat} (h : Charts l n l' n' k) (hm : Picks m n i)
    (hd : l.Disjoint m) : l'.Disjoint m := by
  intro j hj hjm
  rcases h.mem hj with hj | hj
  · exact hd hj hjm
  · exact absurd (hm.below j hjm) (Nat.not_lt.mpr hj)

end

/-- The numbers that the things of a client have in the process, in the order in which the
client got them. No ticket is stamped with zero, which stands for itself. -/
structure Share where
  jobs : List Nat := []
  tickets : List Nat := []
  managers : List Nat := []
  calls : List Nat := []
  stamps : List Nat := [0]

/-- A share keeps what it has and may get more. -/
structure Share.Within (ρ σ : Share) : Prop where
  jobs : ρ.jobs <+: σ.jobs
  tickets : ρ.tickets <+: σ.tickets
  managers : ρ.managers <+: σ.managers
  calls : ρ.calls <+: σ.calls
  stamps : ρ.stamps <+: σ.stamps

/-- No operation is begun in between. -/
structure Share.Gains (ρ σ : Share) : Prop extends ρ.Within σ where
  same : σ.calls = ρ.calls

/-- The clients of the two shares made different things. -/
structure Share.Apart (ρ σ : Share) : Prop where
  jobs : ρ.jobs.Disjoint σ.jobs
  tickets : ρ.tickets.Disjoint σ.tickets
  managers : ρ.managers.Disjoint σ.managers
  calls : ρ.calls.Disjoint σ.calls

variable {ρ σ τ : Share}

theorem Share.Apart.symm (h : ρ.Apart σ) : σ.Apart ρ :=
  ⟨fun _ hs hr => h.jobs hr hs, fun _ hs hr => h.tickets hr hs, fun _ hs hr => h.managers hr hs,
    fun _ hs hr => h.calls hr hs⟩

theorem Share.Within.refl (ρ : Share) : ρ.Within ρ :=
  ⟨List.prefix_rfl, List.prefix_rfl, List.prefix_rfl, List.prefix_rfl, List.prefix_rfl⟩

theorem Share.Within.trans (h : ρ.Within σ) (h' : σ.Within τ) : ρ.Within τ :=
  ⟨h.jobs.trans h'.jobs, h.tickets.trans h'.tickets, h.managers.trans h'.managers,
    h.calls.trans h'.calls, h.stamps.trans h'.stamps⟩

theorem Share.Gains.refl (ρ : Share) : ρ.Gains ρ := ⟨.refl ρ, rfl⟩

theorem Share.Gains.trans (h : ρ.Gains σ) (h' : σ.Gains τ) : ρ.Gains τ :=
  ⟨h.toWithin.trans h'.toWithin, h'.same.trans h.same⟩

/-! ### What is alike -/

/-- The job without what it was told about where it writes. -/
def Job.bare (j : Job) : Job := { j with logger := none, session := 0 }

/-- The ticket without the numbers that depend on what else goes on in the process. -/
def Ticket.bare (k : Ticket) : Ticket := { k with job := 0, session := 0, stamp := none }

theorem Job.eq_of_bare {γ : Type} {i j : Job} (h : i.bare = j.bare) (f : Job → γ)
    (hf : ∀ j, f j.bare = f j) : f i = f j := by rw [← hf i, h, hf]

theorem Ticket.eq_of_bare {γ : Type} {a b : Ticket} (h : a.bare = b.bare) (f : Ticket → γ)
    (hf : ∀ k, f k.bare = f k) : f a = f b := by rw [← hf a, h, hf]

structure Ticket.Alike (ρ : Share) (a b : Ticket) : Prop where
  bare : a.bare = b.bare
  job : Listed ρ.jobs a.job b.job
  stamp : Option.Rel (Listed ρ.stamps) a.stamp b.stamp

structure Queue.Alike (ρ : Share) (q r : Queue) : Prop where
  order : List.Forall₂ (Listed ρ.tickets) q.order r.order
  index : ∀ id, Option.Rel (Listed ρ.tickets) (q.index.find? id) (r.index.find? id)
  closed : q.closed = r.closed

structure Manager.Alike (ρ : Share) (g h : Manager) : Prop where
  config : g.config = h.config
  queue : g.queue.Alike ρ h.queue
  network : g.network = h.network
  accepting : g.accepting = h.accepting
  running : ∀ id, Option.Rel (Listed ρ.tickets) (g.running.find? id) (h.running.find? id)
  busy : g.busy = h.busy
  finished : g.finished = h.finished
  counts : g.counts = h.counts

/-- A number that is returned is that of a job or of a manager. -/
inductive Value.Alike (ρ : Share) : Value → Value → Prop
  | unit : Alike ρ .unit .unit
  | flag (b : Bool) : Alike ρ (.flag b) (.flag b)
  | count (n : Nat) : Alike ρ (.count n) (.count n)
  | outcome (o : Option Outcome) : Alike ρ (.outcome o) (.outcome o)
  | job {n k : Nat} (h : Listed ρ.jobs n k) : Alike ρ (.ref (some n)) (.ref (some k))
  | manager {n k : Nat} (h : Listed ρ.managers n k) : Alike ρ (.ref (some n)) (.ref (some k))

inductive Next.Alike (ρ : Share) : Next → Next → Prop
  | give {v v' : Value} (hv : v.Alike ρ v') : Alike ρ (.give v) (.give v')
  | proceed {m m' : Nat} (hm : Listed ρ.managers m m') (o : Outcome) (tally : Option Nat) :
    Alike ρ (.proceed m o tally) (.proceed m' o tally)

/-- Only managers run tickets. -/
inductive Caller.Alike (ρ : Share) : Caller → Caller → Prop
  | manager {m m' t t' : Nat} (hm : Listed ρ.managers m m') (ht : Listed ρ.tickets t t') (n : Int)
    (since : Nat) (tally : Option Nat) :
    Alike ρ (.manager m t n since tally) (.manager m' t' n since tally)

inductive Frame.Alike (ρ : Share) : Frame → Frame → Prop
  | told {x x' : Next} (hx : x.Alike ρ x') : Alike ρ (.told x) (.told x')
  | attempt {k k' : Caller} (hk : k.Alike ρ k') : Alike ρ (.attempt k) (.attempt k')
  | body {j j' t t' : Nat} (hj : Listed ρ.jobs j j') (ht : Listed ρ.tickets t t') (n : Int)
    {k k' : Caller} (hk : k.Alike ρ k') : Alike ρ (.body j t n k) (.body j' t' n k')
  | plan {j j' t t' : Nat} (hj : Listed ρ.jobs j j') (ht : Listed ρ.tickets t t') (n : Int)
    (reason : String) {k k' : Caller} (hk : k.Alike ρ k') :
    Alike ρ (.plan j t n reason k) (.plan j' t' n reason k')

/-- The same call to a job, with the same number of the attempt. -/
inductive Hook.Alike (ρ : Share) : Hook → Hook → Prop
  | added {j j' t t' : Nat} (hj : Listed ρ.jobs j j') (ht : Listed ρ.tickets t t') :
    Alike ρ (.added j t) (.added j' t')
  | ended {j j' t t' : Nat} (hj : Listed ρ.jobs j j') (ht : Listed ρ.tickets t t') :
    Alike ρ (.ended j t) (.ended j' t')
  | attempt {j j' t t' : Nat} (hj : Listed ρ.jobs j j') (ht : Listed ρ.tickets t t') (n : Int) :
    Alike ρ (.attempt j t n) (.attempt j' t' n)
  | body {j j' t t' : Nat} (hj : Listed ρ.jobs j j') (ht : Listed ρ.tickets t t') (n : Int) :
    Alike ρ (.body j t n) (.body j' t' n)
  | plan {j j' t t' : Nat} (hj : Listed ρ.jobs j j') (ht : Listed ρ.tickets t t') (n : Int)
    (reason : String) (limit : Int) :
    Alike ρ (.plan j t n reason limit) (.plan j' t' n reason limit)

/-- The same happened to the same operation. Lines that are written do not count. -/
inductive Event.Alike (ρ : Share) : Event → Event → Prop
  | entered {a a' j j' t t' : Nat} (ha : Listed ρ.calls a a') (hj : Listed ρ.jobs j j')
    (ht : Listed ρ.tickets t t') (n : Int) : Alike ρ (.entered a j t n) (.entered a' j' t' n)
  | asked {a a' : Nat} (ha : Listed ρ.calls a a') {h h' : Hook} (hh : h.Alike ρ h') :
    Alike ρ (.asked a h) (.asked a' h')
  | returned {a a' : Nat} (ha : Listed ρ.calls a a') {v v' : Value} (hv : v.Alike ρ v') :
    Alike ρ (.returned a v) (.returned a' v')
  | raised {a a' : Nat} (ha : Listed ρ.calls a a') (f : Fault) :
    Alike ρ (.raised a f) (.raised a' f)

/-! ### What is alike stays so as the share grows -/

namespace Share.Within

variable (hw : ρ.Within σ)
include hw

theorem ticket {a b : Ticket} (h : a.Alike ρ b) : a.Alike σ b :=
  ⟨h.bare, h.job.mono hw.jobs, h.stamp.imp fun _ _ h => h.mono hw.stamps⟩

theorem queue {q r : Queue} (h : q.Alike ρ r) : q.Alike σ r :=
  ⟨h.order.imp fun _ _ h => h.mono hw.tickets,
    fun id => (h.index id).imp fun _ _ h => h.mono hw.tickets, h.closed⟩

theorem manager {g h : Manager} (hg : g.Alike ρ h) : g.Alike σ h :=
  { hg with
    queue := hw.queue hg.queue
    running := fun id => (hg.running id).imp fun _ _ h => h.mono hw.tickets }

theorem value {v w : Value} (h : v.Alike ρ w) : v.Alike σ w := by
  cases h with
  | unit => exact .unit
  | flag b => exact .flag b
  | count n => exact .count n
  | outcome o => exact .outcome o
  | job h => exact .job (h.mono hw.jobs)
  | manager h => exact .manager (h.mono hw.managers)

theorem next {x y : Next} (h : x.Alike ρ y) : x.Alike σ y := by
  cases h with
  | give hv => exact .give (hw.value hv)
  | proceed hm o tally => exact .proceed (hm.mono hw.managers) o tally

theorem caller {k l : Caller} (h : k.Alike ρ l) : k.Alike σ l := by
  cases h with
  | manager hm ht n since tally =>
    exact .manager (hm.mono hw.managers) (ht.mono hw.tickets) n since tally

theorem frame {f g : Frame} (h : f.Alike ρ g) : f.Alike σ g := by
  cases h with
  | told hx => exact .told (hw.next hx)
  | attempt hk => exact .attempt (hw.caller hk)
  | body hj ht n hk => exact .body (hj.mono hw.jobs) (ht.mono hw.tickets) n (hw.caller hk)
  | plan hj ht n reason hk =>
    exact .plan (hj.mono hw.jobs) (ht.mono hw.tickets) n reason (hw.caller hk)

theorem hook {h k : Hook} (hh : h.Alike ρ k) : h.Alike σ k := by
  cases hh with
  | added hj ht => exact .added (hj.mono hw.jobs) (ht.mono hw.tickets)
  | ended hj ht => exact .ended (hj.mono hw.jobs) (ht.mono hw.tickets)
  | attempt hj ht n => exact .attempt (hj.mono hw.jobs) (ht.mono hw.tickets) n
  | body hj ht n => exact .body (hj.mono hw.jobs) (ht.mono hw.tickets) n
  | plan hj ht n reason limit =>
    exact .plan (hj.mono hw.jobs) (ht.mono hw.tickets) n reason limit

theorem event {e f : Event} (h : e.Alike ρ f) : e.Alike σ f := by
  cases h with
  | entered ha hj ht n =>
    exact .entered (ha.mono hw.calls) (hj.mono hw.jobs) (ht.mono hw.tickets) n
  | asked ha hh => exact .asked (ha.mono hw.calls) (hw.hook hh)
  | returned ha hv => exact .returned (ha.mono hw.calls) (hw.value hv)
  | raised ha f => exact .raised (ha.mono hw.calls) f

end Share.Within

end Backlog
