import Backlog.Proofs.Allowance
import Backlog.Proofs.Idling
import Mathlib.Data.List.Induction

/-!
# Running until idle ends

While a manager is run until it is idle, nobody else has it do anything. Every attempt uses up
one of those that its queue allows, and what it comes to, another attempt of the same work
included, is covered by what is left. So the run makes no more attempts than the queue allows at
the call, however time goes and whatever the jobs do otherwise.
-/

namespace Backlog

namespace Store

variable {s s' : Store} {m j t : Nat} {n : Int} {f : Frame}

/-- How many attempts may follow the one in progress. -/
def reserve (s : Store) : Frame → Nat
  | .body j _ n _ | .plan j _ n _ _ => ((s.job j).retryLimit - n).toNat
  | .told _ | .attempt _ => 0

/-- Attempt `n` is a standard one of job `j`, and the limit leaves its ticket no more than it
leaves to the attempt. -/
structure Upholds (s : Store) (j t : Nat) (n : Int) : Prop where
  job : j < s.jobs.size
  made : t < s.tickets.size
  plain : s.Plain t
  left : s.left t ≤ (s.job j).retryLimit - n

/-- The operation waits in a standard attempt of manager `m`, or for a job that was told. -/
inductive Standard (m : Nat) (s : Store) : Frame → Prop
  | told (next : Next) : Standard m s (.told next)
  | body (j t : Nat) (n : Int) (k : Caller) (hk : k.work = some (m, t)) (hu : s.Upholds j t n) :
    Standard m s (.body j t n k)
  | plan (j t : Nat) (n : Int) (reason : String) (k : Caller) (hk : k.work = some (m, t))
    (hu : s.Upholds j t n) (hl : n < (s.job j).retryLimit) :
    Standard m s (.plan j t n reason k)

theorem Upholds.spends (h : s.Upholds j t n)
    (hj : j < s'.jobs.size ∧ (s'.job j).lasting = (s.job j).lasting)
    (hz : s.tickets.size ≤ s'.tickets.size) (hs : Spends s s' t) : s'.Upholds j t n := by
  have := Job.retryLimit_of_lasting hj.2
  refine ⟨hj.1, Nat.lt_of_lt_of_le h.made hz, hs.plain h.plain, Int.le_trans hs.left ?_⟩
  rw [this]
  exact h.left

/-- The job is asked for a plan while attempts are left. -/
theorem Standard.asked {k : Caller} (h : s.Standard m (.body j t n k))
    (hl : n < (s.job j).retryLimit) (reason : String) : s.Standard m (.plan j t n reason k) := by
  cases h with
  | body _ _ _ _ hk hu => exact .plan j t n reason k hk hu hl

theorem Standard.spends (h : s.Standard m f)
    (hj : ∀ j < s.jobs.size, j < s'.jobs.size ∧ (s'.job j).lasting = (s.job j).lasting)
    (hz : s.tickets.size ≤ s'.tickets.size)
    (hs : ∀ t, f.work = some (m, t) → Spends s s' t) :
    s'.Standard m f ∧ s'.reserve f = s.reserve f := by
  cases h with
  | told next => exact ⟨.told next, rfl⟩
  | body j t n k hk hu =>
    refine ⟨.body j t n k hk (hu.spends (hj j hu.job) hz (hs t hk)), ?_⟩
    simp only [reserve]
    rw [Job.retryLimit_of_lasting (hj j hu.job).2]
  | plan j t n reason k hk hu hl =>
    have hlimit := Job.retryLimit_of_lasting (hj j hu.job).2
    refine ⟨.plan j t n reason k hk (hu.spends (hj j hu.job) hz (hs t hk)) (hlimit ▸ hl), ?_⟩
    simp only [reserve]
    rw [hlimit]

end Store

namespace World

variable {w w' v e : World} {a m n N t i c : Nat} {f g : Frame} {r : Reply} {k : Caller}
  {o : Outcome} {mv : Move} {moves : List Move}

/-- Nobody but operation `a` has manager `m` do anything: nobody calls it, and nobody replies to
another of its attempts. The manager alone counts attempts, so an edit leaves a ticket in its
keeping no more attempts than it had. -/
def apart (m a : Nat) (w : World) : Move → Prop
  | .call (.manager i _) => i ≠ m
  | .call (.editTicket t e) =>
    t ∈ (w.manager m).queue.order ∨ w.Works a m t →
      Store.Spends w.toStore (w.step (.call (.editTicket t e))).toStore t
  | .reply b _ => b ≠ a → ∀ f, w.pending.find? b = some f → f.serves ≠ some m
  | _ => True

/-- Operation `a` runs manager `m`, and comes to `N` attempts at most. -/
structure Bounded (m a N : Nat) (w : World) : Prop where
  standard : ∀ f, w.pending.find? a = some f → w.toStore.Standard m f
  enough : ∃ n, w.toStore.Suffices m n ∧
    w.tries a + n + (w.pending.find? a).elim 0 w.toStore.reserve ≤ N

theorem Bounded.waiting (hg : w.pending.find? a = some g) (hs : w.toStore.Standard m g)
    (h : w.toStore.Suffices m n) (hN : w.tries a + n + w.toStore.reserve g ≤ N) :
    w.Bounded m a N := by
  constructor
  · intro f hf
    obtain rfl := Option.some.inj (hf.symm.trans hg)
    exact hs
  · refine ⟨n, h, ?_⟩
    rw [hg]
    exact hN

theorem Bounded.over (hp : w.pending.find? a = none) (h : w.toStore.Suffices m n)
    (hN : w.tries a + n ≤ N) : w.Bounded m a N := by
  constructor
  · intro f hf
    cases hf.symm.trans hp
  · refine ⟨n, h, ?_⟩
    rw [hp]
    exact hN

theorem apart_spends (h : w.Founded) (ha : apart m a w mv)
    (ht : t ∈ (w.manager m).queue.order ∨ w.Works a m t) :
    Store.Spends w.toStore (w.step mv).toStore t := by
  have made : t < w.tickets.size :=
    ht.elim (fun ht => h.store.known m t (.inl ht)) (h.works a m t)
  by_cases he : ∃ e, mv = .call (.editTicket t e)
  · obtain ⟨e, rfl⟩ := he
    exact ha ht
  · exact step_spends h made fun e hm => he ⟨e, hm⟩

/-- Nobody else changes what the manager queues. -/
theorem apart_order (h : w.Founded) (hc : a < w.calls) (ha : apart m a w mv)
    (hn : taken a w mv = none) :
    ((w.step mv).manager m).queue.order = (w.manager m).queue.order := by
  by_cases he : a = w.acting mv
  · rw [step_own hc hn he]
  rcases step_departs h m mv with ⟨-, hm⟩ | ⟨t, -, hd⟩
  · rw [hm]
    cases mv with
    | call c =>
      rcases effect_call w c with ⟨-, hs⟩ | hs
      · rw [hs]
        rcases Store.manager_call w.toStore c m with hm | ⟨d, rfl⟩ | ⟨config, rfl, hi⟩
        · rw [hm]
        · exact (ha rfl).elim
        · rw [Store.manager_make w.toStore config hi]
      · rw [hs]
    | reply b r =>
      have hr := replied w b r
      generalize (w.effect (.reply b r)).toStore = s at hr ⊢
      cases hr with
      | planned jobs hj => rfl
      | settled jobs hj i t o hw =>
        obtain ⟨f, hf, hwork⟩ := Option.bind_eq_some_iff.mp hw
        have hi : m ≠ i := by
          rintro rfl
          exact ha (Ne.symm he) f hf (Frame.serves_of_work hwork)
        have hm := Store.manager_settle (s := { w.toStore with jobs }) (h.works b i t hw) o hi
        exact congrArg (·.queue.order) hm
    | clock now => rfl
    | elapse nanos => rfl
  · rcases step_works h hd.works with ⟨d, rfl⟩ | ⟨r, g, hm, hg, hs⟩
    · exact (ha rfl).elim
    · rw [hm] at ha
      exact (ha (Ne.symm he) g hg hs).elim

/-- While others move, the bound stays. -/
theorem Bounded.untaken (h : w.Bounded m a N) (hw : w.Founded) (hc : a < w.calls)
    (ha : apart m a w mv) (hn : taken a w mv = none) : (w.step mv).Bounded m a N := by
  obtain ⟨hp, -, hk⟩ := untaken_step hw hc hn
  have hstd (f : Frame) (hf : w.pending.find? a = some f) :
      (w.step mv).toStore.Standard m f ∧ (w.step mv).toStore.reserve f = w.toStore.reserve f :=
    (h.standard f hf).spends (fun j hj => job_step hw mv hj) (tickets_step hw mv)
      fun t ht => apart_spends hw ha (.inr ((works_of_frame hf).mpr ht))
  obtain ⟨n, hs, hN⟩ := h.enough
  constructor
  · intro f hf
    exact (hstd f (hp ▸ hf)).1
  · refine ⟨n, hs.spends (apart_order hw hc ha hn) fun t ht => apart_spends hw ha (.inl ht), ?_⟩
    rw [hk, hp]
    cases hf : w.pending.find? a with
    | none => rw [hf] at hN; exact hN
    | some f =>
      rw [hf] at hN
      simp only [Option.elim_some] at hN ⊢
      rw [(hstd f hf).2]
      exact hN

/-- Another attempt follows only if the limit leaves one. -/
theorem Rules.allowance (hv : w.Rules f r v k o) (h : w.toStore.Standard m f)
    (hk : k.work = some (m, t)) :
    w.Plain t ∧ (v.verdict m t o = none → w.toStore.allowance t ≤ w.reserve f) := by
  have covers {j : Nat} {n : Int} (hu : w.toStore.Upholds j t n)
      (hl : n < (w.job j).retryLimit) :
      w.toStore.allowance t ≤ ((w.job j).retryLimit - n).toNat := by
    have := hu.left
    simp only [Store.allowance]
    omega
  have ticket {c : Caller} {u : Nat} (hc : c.work = some (m, u)) (hk : c.work = some (m, t)) :
      u = t := (Prod.mk.inj (Option.some.inj (hc.symm.trans hk))).2
  cases h with
  | told next => cases hv
  | body j u n c hc hu =>
    cases hv with
    | succeeded =>
      obtain rfl := ticket hc hk
      exact ⟨hu.plain, fun hn => by cases hn⟩
    | unasked _ _ _ _ _ hr hl =>
      obtain rfl := ticket hc hk
      exact ⟨hu.plain, fun _ => covers hu hl⟩
    | exhausted =>
      obtain rfl := ticket hc hk
      refine ⟨hu.plain, fun hn => ?_⟩
      split at hn <;> cases hn
  | plan j u n reason c hc hu hl =>
    cases hv with
    | planned =>
      obtain rfl := ticket hc hk
      exact ⟨hu.plain, fun _ => covers hu hl⟩

/-- To settle an attempt costs no more than what was kept for it. -/
theorem Rules.suffices (hv : w.Rules f r v k o) (hw : w.Founded) (h : w.toStore.Standard m f)
    (hk : k.work = some (m, t)) (ht : t < w.tickets.size) (hs : w.toStore.Suffices m n) :
    (v.close k o).toStore.Suffices m (n + w.toStore.reserve f) := by
  obtain ⟨hp, hr⟩ := hv.allowance h hk
  obtain ⟨since, x, tally, rfl⟩ := Caller.eq_of_work hk
  obtain ⟨jobs, hjobs, hkeeps⟩ := hv.replanned
  have hfv : v.toStore.Founded := (hw.replanned hv.replanned).store
  have spends (u : Nat) (hu : u < w.tickets.size) : Store.Spends w.toStore v.toStore u :=
    hkeeps.spends_of_ne hw.store hu nofun
  have hsv : v.toStore.Suffices m n :=
    hs.spends (by rw [hjobs]; rfl) fun u hu => spends u (hw.store.known m u (.inl hu))
  exact hsv.settle hfv (hv.replanned.tickets ▸ ht) ((spends t ht).plain hp)
    fun hn => Nat.le_trans (spends t ht).allowance (hr hn)

theorem effect_suffices (hw : w.Founded) (hf : w.pending.find? a = some f)
    (hd : f.drives = some (m, i)) (h : w.toStore.Standard m f) (hs : w.toStore.Suffices m n)
    (r : Reply) : (w.effect (.reply a r)).toStore.Suffices m (n + w.toStore.reserve f) := by
  rcases step_resumes w a r with ⟨-, he⟩ | ⟨f', hf', -, hres⟩
  · rw [he]
    exact hs.mono (Nat.le_add_right ..)
  obtain rfl : f' = f := Option.some.inj (hf'.symm.trans hf)
  have spends (t : Nat) (ht : t < w.tickets.size) :
      Store.Spends w.toStore (w.effect (.reply a r)).toStore t := effect_spends hw ht nofun
  generalize w.effect (.reply a r) = e, w.step (.reply a r) = w' at hres spends ⊢
  have stay (hm : e.manager m = w.manager m) :
      e.toStore.Suffices m (n + w.toStore.reserve f') :=
    (hs.spends (by rw [hm]) fun t ht => spends t (hw.store.known m t (.inl ht))).mono
      (Nat.le_add_right ..)
  have closed {v : World} {c : Caller} {o : Outcome}
      (hv : Rules { w with pending := w.pending.erase a } f' r v c o) :
      (v.close c o).toStore.Suffices m (n + w.toStore.reserve f') := by
    obtain ⟨t, hc⟩ := Caller.work_of_drives (hv.drives.1.trans hd)
    have made := hw.works a m t ((works_of_frame hf).mpr (hv.work.symm.trans hc))
    exact hv.suffices (hw.erase a) h hc made hs
  cases hres with
  | asked j t n reason c q hj hl => exact stay rfl
  | threw next x hj hr => exact stay rfl
  | done next hj hr => exact stay rfl
  | failed u v c o i t fault hv hc hs hu => exact closed hv
  | told u v c o i t j hv hc hu hn => exact closed hv
  | went u v c o hv hu => exact closed hv

/-- An attempt uses up the share of its ticket, and keeps what may follow of it. -/
theorem Proceeds.bounded (h : Proceeds m a i e w') (he : e.Founded)
    (hs : e.toStore.Suffices m n) (hN : e.tries a + n ≤ N) : w'.Bounded m a N := by
  cases h with
  | idle hlog hi hp hk ha =>
    obtain ⟨ls, hlog⟩ := hlog
    refine .over hp ?_ (by rw [hk]; exact hN)
    rw [hlog]
    exact hs.spends rfl fun t ht => ⟨fun hp => ⟨hp.standard, hp.runs⟩, Int.le_refl _⟩
  | departs t f hd hf hdr hst hk ha =>
    have hb := hd.begins
    obtain ⟨k, hkn, hsk⟩ := hs.begins hb
    have made := he.store.known m t (.inl hb.queued)
    have hplain : w'.Plain t := (hb.spends t).plain (hs.plain t hb.queued)
    obtain ⟨g, ⟨c, since, tally, rfl, hg⟩, hp⟩ := hd.waits
    obtain rfl : g = f := by
      rw [hp, Table.find?_insert_same] at hf
      exact Option.some.inj hf
    rcases hg with ⟨-, hc⟩ | ⟨rfl, -⟩
    · rw [hplain.standard] at hc
      cases hc
    have hu : w'.Upholds (w'.ticket t).job t (w'.ticket t).runs := by
      refine ⟨?_, Nat.lt_of_lt_of_le made hb.size, hplain, Int.le_refl _⟩
      rw [hb.ticket, hb.jobs]
      exact he.store.job t made
    have hl : w'.left t = e.left t - 1 := hb.left
    refine .waiting hf (.body _ _ _ _ rfl hu) hsk ?_
    change _ + _ + (w'.left t).toNat ≤ N
    simp only [Store.allowance] at hkn
    omega

theorem Bounded.taken (h : w.Bounded m a N) (hw : w.Founded) (hf : w.pending.find? a = some f)
    (hd : f.drives = some (m, w.tries a)) (hr : f.takes r = true) :
    (w.step (.reply a r)).Bounded m a N := by
  obtain ⟨n, hs, hN⟩ := h.enough
  rw [hf, Option.elim_some] at hN
  have hstd := h.standard f hf
  have he := effect_suffices hw hf hd hstd hs r
  have hwe := hw.effect (.reply a r)
  have onward (hm : (w.step (.reply a r)).manager m = (w.effect (.reply a r)).manager m) :
      (w.step (.reply a r)).toStore.Suffices m (n + w.toStore.reserve f) :=
    he.spends (by rw [hm]) fun t ht =>
      sequels_spends hwe (step_sequels hw _) (hwe.store.known m t (.inl ht))
  have spends (t : Nat) (ht : t < w.tickets.size) :
      Store.Spends w.toStore (w.step (.reply a r)).toStore t := step_spends hw ht nofun
  cases reply_onward hw hf hd hr with
  | waits g hg hdg hst hm hk ha hj hna =>
    cases g with
    | told next =>
      refine .waiting hg (.told next) (onward hm) ?_
      change _ + _ + 0 ≤ N
      omega
    | attempt c => exact (hna c rfl).elim
    | body j t n c => exact absurd hst (Nat.not_lt_zero _)
    | plan j t x reason c =>
      obtain ⟨rfl, hl, hm⟩ := hj j t x reason c rfl
      obtain ⟨hbody, hres⟩ :
          (w.step (.reply a r)).toStore.Standard m (.body j t x c) ∧
            (w.step (.reply a r)).toStore.reserve (.body j t x c) =
              w.toStore.reserve (.body j t x c) :=
        hstd.spends (fun j hj => job_step hw _ hj) (tickets_step hw _)
          fun t ht => spends t (hw.works a m t ((works_of_frame hf).mpr ht))
      have hlimit : ((w.step (.reply a r)).job j).retryLimit = (w.job j).retryLimit := by
        cases hstd with
        | body _ _ _ _ _ hu => exact Job.retryLimit_of_lasting (job_step hw _ hu.job).2
      have hsm : (w.step (.reply a r)).toStore.Suffices m n :=
        hs.spends (by rw [hm]) fun t ht => spends t (hw.store.known m t (.inl ht))
      refine .waiting hg (hbody.asked (hlimit ▸ hl) reason) hsm ?_
      change _ + _ + (w.step (.reply a r)).toStore.reserve (.body j t x c) ≤ N
      rw [hk, hres]
      exact hN
  | proceeds hp =>
    have hk := tries_reply w a a r
    exact hp.bounded hwe he (by omega)
  | raised x hx hm hp hk ha => exact .over hp (onward hm) (by omega)

theorem Bounded.run (h : w.Bounded m a N) (hi : w.Idling m a c) (hw : w.Founded)
    (ha : a < w.calls) (hm : w.Along (apart m a) moves) : (w.run moves).Bounded m a N := by
  induction moves generalizing w c with
  | nil => exact h
  | cons mv moves ih =>
    refine ih ?_ (hi.step hw ha mv) (hw.step mv) (Nat.lt_of_lt_of_le ha (calls_le_step hw mv)) hm.2
    cases ht : World.taken a w mv with
    | none => exact h.untaken hw ha hm.1 ht
    | some r =>
      obtain ⟨rfl, f, hf, hr⟩ := taken_eq_some.mp ht
      exact h.taken hw hf (hi.of_waiting hf).1 hr

/-- Move `mv` ends operation `a`, which runs manager `m`, with the given answer: nothing can run
then, or a job that was told of its end throws. -/
inductive Quits (m a : Nat) (w : World) (mv : Move) : Event → Prop
  | idle (hi : ∀ t ∈ ((w.step mv).manager m).queue.order, ((w.step mv).ticket t).runnable
      ((w.step mv).time m) ((w.step mv).manager m).network ((w.step mv).manager m).busy = false) :
    Quits m a w mv (.returned a (.count ((w.step mv).tries a)))
  | raised (o : Outcome) (i : Nat) (x : Thrown)
    (hf : w.pending.find? a = some (.told (.proceed m o (some i))))
    (hm : mv = .reply a (.threw x)) : Quits m a w mv (.raised a (.thrown x))

theorem Proceeds.quits (h : Proceeds m a i e (w.step mv)) (ha : e.answers a = [])
    (hk : e.tries a = i) :
    (w.step mv).answers a = [] ∧ (∃ f, (w.step mv).pending.find? a = some f) ∨
      ∃ x, w.Quits m a mv x ∧ (w.step mv).answers a = [x] := by
  cases h with
  | idle hlog hi hp hkw haw =>
    refine .inr ⟨_, .idle fun t ht => ?_, ?_⟩
    · simpa using List.find?_eq_none.mp hi t ht
    · rw [haw, ha, hkw, hk]
  | departs t f hd hf hdr hst hkw haw => exact .inl ⟨haw.trans ha, f, hf⟩

/-- What one more move makes of a run that is not over. -/
theorem Bounded.quits (h : w.Bounded m a N) (hi : w.Idling m a c) (hw : w.Founded)
    (ha : a < w.calls) (hn : w.answers a = []) (mv : Move) :
    (w.step mv).answers a = [] ∧ (∃ f, (w.step mv).pending.find? a = some f) ∨
      ∃ x, w.Quits m a mv x ∧ (w.step mv).answers a = [x] := by
  cases hi with
  | returned hp hr => rw [hr] at hn; cases hn
  | raised x hp hr => rw [hr] at hn; cases hn
  | waits f hf hd =>
    cases ht : World.taken a w mv with
    | none =>
      obtain ⟨hp, hans, -⟩ := untaken_step hw ha ht
      exact .inl ⟨hans.trans hn, f, hp.trans hf⟩
    | some r =>
      obtain ⟨rfl, f', hf', hr⟩ := taken_eq_some.mp ht
      obtain rfl : f = f' := Option.some.inj (hf.symm.trans hf')
      cases reply_onward hw hf hd hr with
      | waits g hg hdg hst hm hk hag => exact .inl ⟨hag.trans hn, g, hg⟩
      | proceeds hp => exact hp.quits ((answers_effect ..).trans hn) (tries_reply ..)
      | raised x hx hm hp hk hax =>
        rw [hn] at hax
        rcases hx with ⟨next, y, rfl, rfl, rfl⟩ | ⟨t, hwork, hneg⟩
        · obtain ⟨o, i, rfl, -⟩ := Next.eq_of_drives hd
          exact .inr ⟨_, .raised o i y hf rfl, hax⟩
        · -- the count of a standard attempt is not negative
          cases h.standard f hf with
          | told next => cases hwork
          | body j u n k hk hu =>
            obtain ⟨-, rfl⟩ := Prod.mk.inj (Option.some.inj (hk.symm.trans hwork))
            exact absurd hu.plain.runs (Int.not_le.mpr hneg)
          | plan j u n reason k hk hu =>
            obtain ⟨-, rfl⟩ := Prod.mk.inj (Option.some.inj (hk.symm.trans hwork))
            exact absurd hu.plain.runs (Int.not_le.mpr hneg)

theorem call_bounded (h : w.Founded) (hm : m < w.managers.size) (hs : w.toStore.Suffices m N)
    (hk : w.tries w.calls = 0) : (w.step (.runUntilIdle m)).Bounded m w.calls N := by
  have he : w.effect (.runUntilIdle m) = { w with calls := w.calls + 1 } :=
    if_pos (by simp [Call.inScope, hm])
  refine (call_proceeds h hm).bounded (he ▸ h.effect _) hs ?_
  change w.tries w.calls + N ≤ N
  omega

/-- Either the run is not over, or one of its moves has ended it. -/
theorem quits_run (h : ReachableBy P w) (hw : w.Founded) (hm : m < w.managers.size)
    (hs : w.toStore.Suffices m N) (ha : (w.step (.runUntilIdle m)).Along (apart m w.calls) moves)
    (hv : v = (w.step (.runUntilIdle m)).run moves) :
    v.answers w.calls = [] ∧ (∃ f, v.pending.find? w.calls = some f) ∨
      ∃ ms mv rest x, .runUntilIdle m :: moves = ms ++ mv :: rest ∧
        (w.run ms).Quits m w.calls mv x ∧ v.answers w.calls = [x] := by
  have hans : w.answers w.calls = [] := answers_of_calls_le h (Nat.le_refl _)
  have hk : w.tries w.calls = 0 := tries_of_calls_le h (Nat.le_refl _)
  have hc := calls_runUntilIdle hw hm
  subst hv
  induction moves using List.reverseRecOn with
  | nil =>
    rcases (call_proceeds hw hm).quits hans hk with hq | ⟨x, hq, hx⟩
    · exact .inl hq
    · exact .inr ⟨[], _, [], x, rfl, hq, hx⟩
  | append_singleton moves mv ih =>
    obtain ⟨ha, -⟩ := along_append.mp ha
    have hi := idling_run h hw hm moves
    have hb := (call_bounded hw hm hs hk).run (idling_run h hw hm []) (hw.step _) hc ha
    have hcv := Nat.lt_of_lt_of_le hc (calls_le_run (hw.step _) moves)
    have hu := (hw.step (.runUntilIdle m)).run moves
    rcases ih ha with ⟨hn, -⟩ | ⟨ms, nv, rest, x, hmoves, hq, hx⟩
    · rcases hb.quits hi hu hcv hn mv with hq | ⟨x, hq, hx⟩
      · rw [run_append]
        exact .inl hq
      · rw [run_append]
        exact .inr ⟨.runUntilIdle m :: moves, mv, [], x, rfl, hq, hx⟩
    · refine .inr ⟨ms, nv, rest ++ [mv], x, ?_, hq, ?_⟩
      · rw [← List.cons_append, hmoves, List.append_assoc, List.cons_append]
      · have hp : ((w.step (.runUntilIdle m)).run moves).pending.find? w.calls = none := by
          cases hi with
          | waits f hf hd ha => rw [ha] at hx; cases hx
          | returned hp => exact hp
          | raised y hp => exact hp
        rw [run_append, ended_run hu hcv hp, hx]

/-- A manager whose queued tickets are plain is run until it is idle, and nobody else has it do
anything meanwhile. The run begins as many attempts as the queue allows at most, takes three
replies for each at most, and ends if it gets them: it returns the number of attempts once no
queued ticket may run, or passes on what a job throws that is told of its end. The clock may show
anything whenever a hook is waited for, but between two hooks it stands still. -/
theorem idles_within_allowance (h : Reachable w) (hm : m < w.managers.size)
    (hq : ∀ t ∈ (w.manager m).queue.order,
      (w.job (w.ticket t).job).custom = false ∧ 0 ≤ (w.ticket t).runs)
    (ha : (w.step (.runUntilIdle m)).Along (apart m w.calls) moves)
    (hv : v = (w.step (.runUntilIdle m)).run moves) :
    v.tries w.calls ≤ ((w.manager m).queue.order.map fun t =>
      max 1 ((w.job (w.ticket t).job).retryLimit - (w.ticket t).runs).toNat).sum ∧
    ((w.step (.runUntilIdle m)).along (taken w.calls) moves).length ≤ 3 * v.tries w.calls ∧
    (v.answers w.calls = [] ∧ (∃ f, v.pending.find? w.calls = some f) ∨
      ∃ ms mv rest x, .runUntilIdle m :: moves = ms ++ mv :: rest ∧
        (w.run ms).Quits m w.calls mv x ∧ v.answers w.calls = [x]) := by
  have hw : w.Founded := h.induction Founded.start fun _ mv hw => hw.step mv
  have hr : ReachableBy (fun _ _ => True) w := by
    obtain ⟨now, before, rfl⟩ := h
    exact ⟨now, before, along_true .., rfl⟩
  have hs : w.toStore.Suffices m _ := ⟨fun t ht => ⟨(hq t ht).1, (hq t ht).2⟩, Nat.le_refl _⟩
  have hb := (call_bounded hw hm hs (tries_of_calls_le hr (Nat.le_refl _))).run
    (idling_run hr hw hm []) (hw.step _) (calls_runUntilIdle hw hm) ha
  have hi := idling_run hr hw hm moves
  refine ⟨?_, ?_, quits_run hr hw hm hs ha hv⟩
  · obtain ⟨n, -, hN⟩ := hb.enough
    subst hv
    exact Nat.le_trans (by omega) hN
  · exact hv ▸ hi.replies_le

/-- A job that may be tried twice is queued, and fails twice. -/
def twice : List Move :=
  [.call (.makeJob { id := "a", retryLimit := 2, asksPlan := true }), .call (.makeManager {}),
    .call (.manager 0 (.add (some 0))), .reply 2 .done]

theorem idles_within_allowance_twice :
    ∃ v, v = (((start 0).run twice).step (.runUntilIdle 0)).run
        [.reply 3 (.failed "late"), .clock 5, .reply 3 (.plan .again), .reply 3 (.failed "late"),
          .reply 3 .done] ∧
      v.tries 3 ≤ 2 ∧ v.answers 3 = [.returned 3 (.count 2)] := by
  refine ⟨_, rfl, (idles_within_allowance ⟨0, twice, rfl⟩ (by decide) ?_ ?_ rfl).1, ?_⟩
  · decide +kernel
  · exact ⟨fun h => (h rfl).elim, trivial, fun h => (h rfl).elim, fun h => (h rfl).elim,
      fun h => (h rfl).elim, trivial⟩
  · decide +kernel

end World

end Backlog
