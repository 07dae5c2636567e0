import Multicore.Runs.Progress
import Multicore.Stacks.TestOneStacks
import Mathlib.Data.Fintype.Option
import Mathlib.Data.Prod.Lex

/-! How `testone` comes to its end. A worker makes a round of every push and of every pop that finds a
node, so there are only so many pushes, and a coin that does not fall on tails for ever stops the pops
that find nothing. From then on every action brings the end nearer: what is on the stack or still to
come to it, the points at which the threads stand, and for a step of the stack its own measure. Where
nothing happens any more and whoever can act would, everybody is done. -/

namespace Multicore.Stacks.TestOne

open Runs

variable {numthreads : ℕ} {N : Type*} {data : N → Int32} {k k' : Workers numthreads} {t : Fin numthreads}
  {x x' : Atomic (Thread numthreads) (List N) (Op N) (Res N)} {v : Thread numthreads} {op : Op N} {r : Res N}

/-! ### The steps of the threads -/

/-- What a thread does in an event of the stack. -/
inductive Taken (k : Workers numthreads) :
    Event (Thread numthreads) (Op N) (Res N) → Workers numthreads → Prop
  | push {t : Fin numthreads} {i : Int32} {a b : UInt64} (n : N) (hp : k.worker t = .at (.loop i a b))
      (hi : i < 10000) : Taken k (.call (some t) (.push n)) (k.goto t (.pushing i a b))
  | pop {t : Fin numthreads} {i : Int32} {a b : UInt64} (hp : k.worker t = .at (.loop i a b))
      (hi : i < 10000) : Taken k (.call (some t) .pop) (k.goto t (.popping i a b))
  | pushed {t : Fin numthreads} {i : Int32} {a b : UInt64} (hp : k.worker t = .pushing i a b) :
      Taken k (.ret (some t) .pushed) (k.goto t (.at (.loop (i + 1) (a + 1) b)))
  | popped {t : Fin numthreads} {i : Int32} {a b : UInt64} (r : Option N) (hp : k.worker t = .popping i a b) :
      Taken k (.ret (some t) (.popped r)) (k.goto t (.at (popped i a b r)))
  | main {c : UInt64} (hm : k.main = .popping c) (hg : k.globalstack = true) :
      Taken k (.call none .pop) { k with main := .calling c }
  | found {c : UInt64} (n : N) (hm : k.main = .calling c) :
      Taken k (.ret none (.popped (some n))) { k with main := .popping (c + 1) }
  | nothing {c : UInt64} (hm : k.main = .calling c) :
      Taken k (.ret none (.popped none)) { k with main := .printing c }

theorem taken_of_takes {e : Event (Thread numthreads) (Op N) (Res N)} (hk : takes data k e = some k') :
    Taken k e k' := by
  unfold takes at hk
  split at hk
  case h_1 t n =>
    split at hk
    · rename_i i a b hp
      simp only [Option.ite_none_right_eq_some, Option.some.injEq] at hk
      obtain ⟨⟨hi, -⟩, rfl⟩ := hk
      exact .push n hp hi
    · cases hk
  case h_2 t =>
    split at hk
    · rename_i i a b hp
      simp only [Option.ite_none_right_eq_some, Option.some.injEq] at hk
      obtain ⟨hi, rfl⟩ := hk
      exact .pop hp hi
    · cases hk
  case h_3 t =>
    split at hk
    · rename_i i a b hp
      cases hk
      exact .pushed hp
    · cases hk
  case h_4 t r =>
    split at hk
    · rename_i i a b hp
      cases hk
      exact .popped r hp
    · cases hk
  case h_5 =>
    split at hk
    · rename_i c hm
      simp only [Option.ite_none_right_eq_some, Option.some.injEq] at hk
      obtain ⟨hg, rfl⟩ := hk
      exact .main hm hg
    · cases hk
  case h_6 r =>
    split at hk
    · rename_i c n hm
      cases hk
      exact .found n hm
    · rename_i c hm
      cases hk
      exact .nothing hm
    · cases hk
  all_goals cases hk

/-- The points before a worker, its calls aside. -/
def Worker.left : Worker → ℕ
  | .at .start | .pushing _ _ _ | .popping _ _ _ => 7
  | .at (.loop _ _ _) => 6
  | .at (.readPush _ _) => 4
  | .at (.writePush _ _ _) => 3
  | .at (.readPop _ _) => 2
  | .at (.writePop _ _ _) => 1
  | .at (.done _ _) => 0

theorem left_popped (i : Int32) (a b : UInt64) (r : Option N) : (Worker.at (popped i a b r)).left = 6 := by
  cases r <;> rfl

/-! ### The rounds that are left -/

/-- The rounds that a worker has before it when a push has already made its own. -/
def Worker.rounds : Worker → ℕ
  | .at .start => 10000
  | .at (.loop i _ _) | .popping i _ _ => (10000 - i.toInt).toNat
  | .pushing i _ _ => (9999 - i.toInt).toNat
  | .at _ => 0

/-- The push calls of the workers. -/
def isPush : Event (Thread numthreads) (Op N) (Res N) → Bool
  | .call (some _) (.push _) => true
  | _ => false

/-- A worker moves, and the sum over the workers changes by its own share. -/
theorem sum_goto (f : Worker → ℕ) {w : Worker} {c : ℕ} (hw : k'.worker = Function.update k.worker t w)
    (hc : f w + c ≤ f (k.worker t)) : ∑ v, f (k'.worker v) + c ≤ ∑ v, f (k.worker v) := by
  have hsum := sum_change (fun v => f (k.worker v)) (fun v => f (k'.worker v)) t fun v hv => by
    rw [hw, Function.update_of_ne hv]
  have hself : f (k'.worker t) = f w := by rw [hw, Function.update_self]
  simp only [hself] at hsum
  omega

theorem Worker.rounds_pushing {i : Int32} (hi : i < 10000) (a b : UInt64) :
    (Worker.pushing i a b).rounds + 1 = (Worker.at (.loop i a b)).rounds := by
  have hlt : i.toInt < 10000 := Int32.lt_iff_toInt_lt.mp hi
  simp only [Worker.rounds]
  omega

theorem toInt_succ {i : Int32} (hi : i < 10000) : (i + 1).toInt = i.toInt + 1 := by
  have hlt : i.toInt < 10000 := Int32.lt_iff_toInt_lt.mp hi
  have hle : -2147483648 ≤ i.toInt := Int32.le_toInt i
  rw [Int32.toInt_add]
  show Int.bmod (i.toInt + 1) (2 ^ 32) = _
  rw [Int.bmod_eq_of_le] <;> omega

/-- A pop that finds nothing makes no round. -/
theorem Worker.rounds_popped {i : Int32} (hi : i < 10000) (a b : UInt64) (r : Option N) :
    (Worker.at (popped i a b r)).rounds ≤ (Worker.popping i a b).rounds := by
  cases r with
  | none => simp only [popped, Worker.rounds, Int32.sub_add_cancel, le_refl]
  | some n =>
    simp only [popped, Worker.rounds, toInt_succ hi]
    omega

/-- A step of a worker outside the stack brings it nearer to its end, and costs no round. -/
theorem work_cases (hu : work k t = some k') : ∃ w, k'.worker = Function.update k.worker t w ∧
    k'.main = k.main ∧ w.left < (k.worker t).left ∧ w.rounds ≤ (k.worker t).rounds ∧
    (k'.globalstack = true ∨ k.worker t ≠ .at .start ∧ k'.globalstack = k.globalstack) := by
  cases hp : k.worker t with
  | pushing i a b | popping i a b => simp [work, hp] at hu
  | «at» p =>
    cases p with
    | done a b => simp [work, hp] at hu
    | loop i a b =>
      simp only [work, hp, Option.ite_none_left_eq_some, Option.some.injEq] at hu
      obtain ⟨-, rfl⟩ := hu
      exact ⟨_, rfl, rfl, by simp [Worker.left], Nat.zero_le _, .inr ⟨by simp, rfl⟩⟩
    | start =>
      simp only [work, hp, Option.some.injEq] at hu
      subst hu
      exact ⟨_, rfl, rfl, by simp [Worker.left], le_rfl, .inl rfl⟩
    | readPush a b | writePush a b total | readPop a b | writePop a b total =>
      simp only [work, hp, Option.some.injEq] at hu
      subst hu
      exact ⟨_, rfl, rfl, by simp [Worker.left], le_rfl, .inr ⟨by simp, rfl⟩⟩

/-- A push takes a round from the rest, and nothing gives one back. -/
theorem rounds_taken {e : Event (Thread numthreads) (Op N) (Res N)} (hf : Fits data k x)
    (hk : Taken k e k') :
    ∑ t, (k'.worker t).rounds + [e].countP isPush ≤ ∑ t, (k.worker t).rounds := by
  cases hk with
  | push n hp hi => exact sum_goto _ rfl (by rw [hp]; exact (Worker.rounds_pushing hi _ _).le)
  | pop hp hi => exact sum_goto (c := 0) _ rfl (by rw [hp]; exact le_rfl)
  | @pushed t i a b hp =>
    have hfit := hf.worker t
    rw [hp] at hfit
    refine sum_goto (c := 0) _ rfl ?_
    rw [hp]
    simp only [Worker.rounds, toInt_succ hfit.1]
    omega
  | @popped t i a b r hp =>
    have hfit := hf.worker t
    rw [hp] at hfit
    exact sum_goto (c := 0) _ rfl (by rw [hp]; exact Worker.rounds_popped hfit.1 a b r)
  | main hm hg | found n hm | nothing hm => exact le_rfl

/-! ### The way to the end -/

/-- The points before the main thread. A node that it finds comes off the stack, which pays for
its return to the loop. -/
def MainThread.left : MainThread → Status (Op N) (Res N) → ℕ
  | .joining, _ => 7
  | .calling _, .done (.popped (some _)) => 6
  | .popping _, _ => 5
  | .calling _, .idle | .calling _, .pending _ => 4
  | .calling _, .done _ => 3
  | .printing _, _ => 2
  | .returned, _ => 1

def coming : Status (Op N) (Res N) → ℕ
  | .pending (.push _) => 1
  | _ => 0

/-- The nodes that are on the stack or on their way to it. -/
def load (x : Atomic (Thread numthreads) (List N) (Op N) (Res N)) : ℕ :=
  x.obj.length + ∑ v, coming (x.status v)

/-- What is left to do when the workers make no more calls. -/
def distance (k : Workers numthreads) (x : Atomic (Thread numthreads) (List N) (Op N) (Res N)) : ℕ :=
  8 * load x + k.main.left (x.status none) + ∑ t, (k.worker t).left

theorem distance_work (hu : work k t = some k') : distance k' x < distance k x := by
  obtain ⟨w, hw, hmain, hleft, -⟩ := work_cases hu
  have hsum := sum_goto Worker.left (c := 1) hw hleft
  simp only [distance, hmain]
  omega

/-- So does one of the main thread. -/
theorem workMain_cases (hu : workMain k = some k') :
    ∃ m : MainThread, k' = { k with main := m } ∧ ∀ a : Status (Op N) (Res N), m.left a < k.main.left a := by
  unfold workMain at hu
  split at hu
  · rename_i hm
    simp only [Option.ite_none_right_eq_some, Option.some.injEq] at hu
    obtain ⟨-, rfl⟩ := hu
    exact ⟨_, rfl, fun a => by simp [hm, MainThread.left]⟩
  · rename_i c hm
    cases hu
    exact ⟨_, rfl, fun a => by simp [hm, MainThread.left]⟩
  all_goals cases hu

theorem distance_workMain (hu : workMain k = some k') : distance k' x < distance k x := by
  obtain ⟨m, rfl, hm⟩ := workMain_cases (N := N) hu
  have hlt := hm (x.status none)
  simp only [distance]
  omega

/-- A call or a return of other than a push leaves the load. -/
theorem load_eq (hobj : x'.obj = x.obj) (hv : ∀ u, u ≠ v → x'.status u = x.status u)
    (hc : coming (x'.status v) = coming (x.status v)) : load x' = load x := by
  have hsum := sum_change (fun u => coming (x.status u)) (fun u => coming (x'.status u)) v fun u hu => by
    rw [hv u hu]
  simp only [load, hobj]
  omega

/-- A push that takes effect leaves the load, and a pop takes its node off it. -/
theorem load_execute (hs : x.status v = .pending op) (hx' : x'.status v = .done ((lifo N).apply x.obj op).2)
    (hobj : x'.obj = ((lifo N).apply x.obj op).1) (hv : ∀ u, u ≠ v → x'.status u = x.status u) :
    load x' ≤ load x ∧ (op = .pop → x.obj ≠ [] → load x' < load x) := by
  have hsum := sum_change (fun u => coming (x.status u)) (fun u => coming (x'.status u)) v fun u hu => by
    rw [hv u hu]
  have hnone : coming (x'.status v) = 0 := by rw [hx']; rfl
  simp only [hnone] at hsum
  simp only [load, hobj]
  cases op with
  | push n =>
    have hone : coming (x.status v) = 1 := by rw [hs]; rfl
    simp only [lifo, List.length_cons]
    exact ⟨by omega, fun h => by cases h⟩
  | pop =>
    have hzero : coming (x.status v) = 0 := by rw [hs]; rfl
    cases hl : x.obj with
    | nil => exact ⟨by simp only [lifo]; omega, fun _ h => absurd rfl h⟩
    | cons n l =>
      simp only [lifo, List.length_cons]
      exact ⟨by omega, fun _ _ => by omega⟩

/-- Calls aside that the workers make, the stack never leads away from the end. -/
theorem distance_object {b : Act (Thread numthreads) (Op N)} (hf : Fits data k x)
    (hb : (atomic (Thread numthreads) (lifo N)).step x b = some x')
    (hl : (client numthreads data).takeAll k ((atomic (Thread numthreads) (lifo N)).shows x b) = some k')
    (hno : ∀ t op, Event.call (some t) op ∉ (atomic (Thread numthreads) (lifo N)).shows x b) :
    distance k' x' + ((atomic (Thread numthreads) (lifo N)).shows x b).length ≤ distance k x := by
  obtain ⟨v, hv, ⟨op, hshow, hs, hx', hobj⟩ | ⟨op, hshow, hs, hx', hobj⟩ | ⟨r, hshow, hs, hx', hobj⟩⟩ :=
    Atomic.step_cases hb
  all_goals rw [show (atomic _ (lifo N)).shows x b = _ from hshow] at hl hno ⊢
  · rw [Client.takeAll_singleton] at hl
    cases taken_of_takes hl with
    | push n hp hi | pop hp hi => exact absurd (List.mem_singleton_self _) (hno _ _)
    | main hm hg =>
      have hload : load x' = load x := load_eq hobj hv (by rw [hs, hx']; rfl)
      simp only [distance, hload, hm, hs, hx', MainThread.left, List.length_singleton]
      omega
  · cases hl
    obtain ⟨hle, hlt⟩ := load_execute hs hx' hobj hv
    cases v with
    | some t =>
      simp only [distance, hv none (Option.some_ne_none t).symm, List.length_nil]
      omega
    | none =>
      have hfit := hf.main
      rw [hs] at hfit
      cases hm : k.main with
      | calling c =>
        rw [hm] at hfit
        obtain h | ⟨r, h⟩ := hfit <;> cases h
        simp only [distance, hm, hs, hx', List.length_nil]
        cases hobj : x.obj with
        | nil =>
          simp only [lifo, MainThread.left]
          omega
        | cons n l =>
          have hlt := hlt rfl (by rw [hobj]; exact List.cons_ne_nil n l)
          simp only [lifo, MainThread.left]
          omega
      | joining | popping c | printing c | returned =>
        rw [hm] at hfit
        cases hfit
  · rw [Client.takeAll_singleton] at hl
    have hload : load x' = load x := load_eq hobj hv (by rw [hs, hx']; rfl)
    have hback : ∀ t, v = some t → ∑ v, (k'.worker v).left + 1 ≤ ∑ v, (k.worker v).left → k'.main = k.main →
        distance k' x' + 1 ≤ distance k x := by
      rintro t rfl hsum hmain
      simp only [distance, hload, hmain, hv none (Option.some_ne_none t).symm]
      omega
    cases taken_of_takes hl with
    | @pushed t i a b hp =>
      have hsum : ∑ v, ((k.goto t (.at (.loop (i + 1) (a + 1) b))).worker v).left + 1 ≤
          ∑ v, (k.worker v).left := sum_goto Worker.left rfl (by rw [hp]; exact le_rfl)
      exact hback t rfl hsum rfl
    | @popped t i a b r hp =>
      have hsum : ∑ v, ((k.goto t (.at (popped i a b r))).worker v).left + 1 ≤ ∑ v, (k.worker v).left :=
        sum_goto Worker.left rfl (by rw [hp, left_popped]; exact le_rfl)
      exact hback t rfl hsum rfl
    | found n hm | nothing hm =>
      simp only [distance, hload, hm, hs, MainThread.left, List.length_singleton]
      omega

/-- A worker publishes the stack before it goes into its loop. -/
def Published (k : Workers numthreads) : Prop := ∀ t, k.worker t ≠ .at .start → k.globalstack = true

theorem Published.work (hpub : Published k) (hu : TestOne.work k t = some k') : Published k' := by
  obtain ⟨w, -, -, -, -, hg | ⟨ht, hg⟩⟩ := work_cases hu
  · exact fun u _ => hg
  · exact fun u _ => hg.trans (hpub t ht)

theorem Published.taken {e : Event (Thread numthreads) (Op N) (Res N)} (hpub : Published k)
    (hk : Taken k e k') : Published k' := by
  cases hk with
  | push n hp hi | pop hp hi | pushed hp | popped r hp =>
    exact fun _ _ => hpub _ (hp.trans_ne (by simp))
  | main hm hg | found n hm | nothing hm => exact hpub

/-- What a run of the stack does in which the client takes its part. -/
theorem object_run {h : List (Event (Thread numthreads) (Op N) (Res N))}
    (hr : Run (atomic (Thread numthreads) (lifo N)) Free x h x') (hf : Fits data k x) (hpub : Published k)
    (hl : (client numthreads data).takeAll k h = some k') :
    Fits data k' x' ∧ Published k' ∧ ∑ t, (k'.worker t).rounds + h.countP isPush ≤ ∑ t, (k.worker t).rounds ∧
      ((∀ t op, Event.call (some t) op ∉ h) → distance k' x' + h.length ≤ distance k x) := by
  induction hr generalizing k' with
  | refl =>
    cases hl
    exact ⟨hf, hpub, le_rfl, fun _ => le_rfl⟩
  | @tail h y z b _ _ hb ih =>
    rw [Client.takeAll_append, Option.bind_eq_some_iff] at hl
    obtain ⟨m, hm, hl⟩ := hl
    obtain ⟨hf, hpub, hrounds, hdist⟩ := ih hm
    have hlast : Published k' ∧ ∑ t, (k'.worker t).rounds + (y.shows b).countP isPush ≤
        ∑ t, (m.worker t).rounds := by
      obtain ⟨v, -, ⟨op, hshow, -⟩ | ⟨op, hshow, -⟩ | ⟨r, hshow, -⟩⟩ := Atomic.step_cases hb
      all_goals rw [show (atomic _ (lifo N)).shows y b = _ from hshow] at hl
      · rw [Client.takeAll_singleton] at hl
        have htaken := taken_of_takes hl
        exact ⟨hpub.taken htaken, by rw [hshow]; exact rounds_taken hf htaken⟩
      · cases hl
        exact ⟨hpub, by rw [hshow]; exact le_rfl⟩
      · rw [Client.takeAll_singleton] at hl
        have htaken := taken_of_takes hl
        exact ⟨hpub.taken htaken, by rw [hshow]; exact rounds_taken hf htaken⟩
    refine ⟨(seen_object hf hb hl).1, hlast.1, ?_, fun hno => ?_⟩
    · have hle := hlast.2
      rw [List.countP_append]
      show _ + (_ + (y.shows b).countP isPush) ≤ _
      omega
    · have hle := hdist fun t op hmem => hno t op (List.mem_append_left _ hmem)
      have hle' := distance_object hf hb hl fun t op hmem => hno t op (List.mem_append_right _ hmem)
      rw [List.length_append]
      omega

/-! ### Over a stack on which somebody can go on -/

section Over
variable {σ α : Type*} {P : Program σ α (Event (Thread numthreads) (Op N) (Res N))} {C : Guard σ α}
  {R : σ → Atomic (Thread numthreads) (List N) (Op N) (Res N) → Prop} {thread : α → Thread numthreads}
  {μ : σ → ℕ} {s u : σ}

/-- `v` can take an action of the stack that shows `h`. -/
def Can (P : Program σ α (Event (Thread numthreads) (Op N) (Res N))) (C : Guard σ α)
    (thread : α → Thread numthreads) (s : σ) (v : Thread numthreads)
    (h : List (Event (Thread numthreads) (Op N) (Res N))) : Prop :=
  ∃ a u, thread a = v ∧ C s a ∧ P.step s a = some u ∧ P.shows s a = h

/-- The stack is followed by the atomic one. Its own steps lower a measure; who is in no call can pop,
and while a call is under way it can return, or there is a step. -/
structure Lively (P : Program σ α (Event (Thread numthreads) (Op N) (Res N))) (C : Guard σ α)
    (R : σ → Atomic (Thread numthreads) (List N) (Op N) (Res N) → Prop) (thread : α → Thread numthreads)
    (μ : σ → ℕ) : Prop where
  follow : Refines P C R
  spend : ∀ {s a u}, P.step s a = some u → P.shows s a = [] → μ u < μ s
  idle : ∀ {s x v}, R s x → x.status v = .idle → Can P C thread s v [.call v .pop]
  busy : ∀ {s x v}, R s x → x.status v ≠ .idle →
    (∃ w, Can P C thread s w []) ∨ ∃ r, x.status v = .done r ∧ Can P C thread s v [.ret v r]

/-- The atomic stack that the client and its stack keep up with. -/
structure Kept (data : N → Int32) (R : σ → Atomic (Thread numthreads) (List N) (Op N) (Res N) → Prop)
    (z : Workers numthreads × σ) (x : Atomic (Thread numthreads) (List N) (Op N) (Res N)) : Prop where
  refines : R z.2 x
  fits : Fits data z.1 x
  published : Published z.1

def rounds (z : Workers numthreads × σ) : ℕ := ∑ t, (z.1.worker t).rounds

/-- The way to the end, and the steps of the stack on it. -/
def way (μ : σ → ℕ)
    (z : (Workers numthreads × σ) × Atomic (Thread numthreads) (List N) (Op N) (Res N)) : ℕ ×ₗ ℕ :=
  toLex (distance z.1.1 z.2, μ z.1.2)

/-- What an action does: a push costs a round, and what is no call of a worker leads on. -/
def Leads (P : Program σ α (Event (Thread numthreads) (Op N) (Res N))) (μ : σ → ℕ)
    (y : (Workers numthreads × σ) × Atomic (Thread numthreads) (List N) (Op N) (Res N))
    (a : Thread numthreads ⊕ α)
    (y' : (Workers numthreads × σ) × Atomic (Thread numthreads) (List N) (Op N) (Res N)) : Prop :=
  rounds y'.1 + (Client.between P y.1 a).countP isPush ≤ rounds y.1 ∧
    ((∀ t op, Event.call (some t) op ∉ Client.between P y.1 a) → way μ y' < way μ y)

theorem Lively.step (hP : Lively P C R thread μ) {z z' : Workers numthreads × σ} {a : Thread numthreads ⊕ α}
    (hk : Kept data R z x) (hc : Client.both Free C z a)
    (hu : ((client numthreads data).driving P).step z a = some z') :
    ∃ y, Kept data R z' y ∧ Leads P μ (z, x) a (z', y) := by
  obtain ⟨k, s⟩ := z
  obtain ⟨k', s'⟩ := z'
  obtain ⟨hR, hf, hpub⟩ := hk
  obtain ⟨b, rfl, hb, rfl⟩ | ⟨b, rfl, hb, hl⟩ := Client.driving_cases hu
  · refine ⟨x, ?_⟩
    cases b with
    | some t =>
      obtain ⟨w, hw, -, -, hrounds, -⟩ := work_cases hb
      exact ⟨⟨hR, (seen_work hf hb).1, hpub.work hb⟩, sum_goto _ (c := 0) hw hrounds,
        fun _ => Prod.Lex.left _ _ (distance_work hb)⟩
    | none =>
      obtain ⟨m, rfl, -⟩ := workMain_cases (N := N) hb
      exact ⟨⟨hR, (seen_workMain hf hb).1, hpub⟩, le_rfl, fun _ => Prod.Lex.left _ _ (distance_workMain hb)⟩
  · obtain ⟨y, hy, hR'⟩ := hP.follow _ _ _ _ hR hc hb
    obtain ⟨hf', hpub', hrounds, hdist⟩ := object_run hy hf hpub hl
    refine ⟨y, ⟨hR', hf', hpub'⟩, hrounds, fun hno => ?_⟩
    have hle := hdist hno
    cases hshow : P.shows s b with
    | nil =>
      rw [hshow, List.length_nil, Nat.add_zero] at hle
      obtain hlt | heq := hle.lt_or_eq
      · exact Prod.Lex.left _ _ hlt
      · show toLex (distance k' y, μ s') < toLex (distance k x, μ s)
        rw [heq]
        exact Prod.Lex.right _ (hP.spend hb hshow)
    | cons e h =>
      rw [hshow, List.length_cons] at hle
      exact Prod.Lex.left _ _ ((Nat.lt_add_of_pos_right h.length.succ_pos).trans_le hle)

/-- Where nobody can take an action everybody is done. -/
theorem Lively.finished (hP : Lively P C R thread μ) (hn : 0 < numthreads) (hk : Kept data R (k, s) x)
    (hstuck : ∀ a, Client.both Free C (k, s) a → ((client numthreads data).driving P).step (k, s) a = none) :
    (∀ t, (k.worker t).isDone) ∧ k.main = .returned := by
  have hnot : ∀ {v h}, Can P C thread s v h → (client numthreads data).takeAll k h = none := by
    rintro v _ ⟨a, u, -, hc, hu, rfl⟩
    have hnone := hstuck (.inr a) hc
    simpa [Client.driving, hu] using hnone
  have hwork : ∀ t, work k t = none := fun t => by
    simpa [Client.driving, client] using hstuck (.inl (some t)) trivial
  have hmain : workMain k = none := by
    simpa [Client.driving, client] using hstuck (.inl none) trivial
  have hbusy : ∀ v, x.status v ≠ .idle →
      ∃ r, x.status v = .done r ∧ (client numthreads data).takeAll k [.ret v r] = none := fun v hv => by
    obtain ⟨w, hw⟩ | ⟨r, hr, hret⟩ := hP.busy hk.refines hv
    · cases hnot hw
    · exact ⟨r, hr, hnot hret⟩
  -- a result would be taken
  have hidle : ∀ t, ∃ p, k.worker t = .at p := fun t => by
    have hfit := hk.fits.worker t
    cases hp : k.worker t with
    | «at» p => exact ⟨p, rfl⟩
    | pushing i a b =>
      rw [hp] at hfit
      obtain ⟨-, ⟨n, -, h⟩ | h⟩ := hfit
      all_goals obtain ⟨r, hr, hnone⟩ := hbusy (some t) (by simp [h])
      all_goals cases h.symm.trans hr
      simp [Client.takeAll_singleton, client, takes, hp] at hnone
    | popping i a b =>
      rw [hp] at hfit
      obtain ⟨-, h | ⟨r, h⟩⟩ := hfit
      all_goals obtain ⟨r, hr, hnone⟩ := hbusy (some t) (by simp [h])
      all_goals cases h.symm.trans hr
      simp [Client.takeAll_singleton, client, takes, hp] at hnone
  have hdone : ∀ t, (k.worker t).isDone := fun t => by
    obtain ⟨p, hp⟩ := hidle t
    have hnone := hwork t
    rw [hp]
    cases p with
    | done a b => rfl
    | loop i a b =>
      have hfit := hk.fits.worker t
      rw [hp] at hfit
      have hpop := hnot (hP.idle hk.refines hfit)
      by_cases hi : i < 10000
      · simp [Client.takeAll_singleton, client, takes, hp, hi] at hpop
      · simp [work, hp, hi] at hnone
    | start | readPush a b | writePush a b c | readPop a b | writePop a b c => simp [work, hp] at hnone
  refine ⟨hdone, ?_⟩
  have hfit := hk.fits.main
  cases hm : k.main with
  | returned => rfl
  | joining => simp [workMain, hm, hdone] at hmain
  | printing c => simp [workMain, hm] at hmain
  | popping c =>
    rw [hm] at hfit
    have hglobal : k.globalstack = true := hk.published ⟨0, hn⟩ fun h => by
      have := hdone ⟨0, hn⟩
      rw [h] at this
      cases this
    have hpop := hnot (hP.idle hk.refines hfit)
    simp [Client.takeAll_singleton, client, takes, hm, hglobal] at hpop
  | calling c =>
    rw [hm] at hfit
    obtain h | ⟨r, h⟩ := hfit
    all_goals obtain ⟨r', hr, hnone⟩ := hbusy none (by simp [h])
    all_goals cases h.symm.trans hr
    cases r <;> simp [Client.takeAll_singleton, client, takes, hm] at hnone

/-- No worker's coin falls on tails for ever: a worker that pushes no more makes no more calls. -/
def Tossed (P : Program σ α (Event (Thread numthreads) (Op N) (Res N))) (f : ℕ → Workers numthreads × σ)
    (act : ℕ → Option (Thread numthreads ⊕ α)) : Prop :=
  ∀ t l, (∀ m a n, l ≤ m → act m = some a → Event.call (some t) (.push n) ∉ Client.between P (f m) a) →
    ∃ l', ∀ m a op, l' ≤ m → act m = some a → Event.call (some t) op ∉ Client.between P (f m) a

/-- The thread of `testone` that takes an action. -/
def actor (thread : α → Thread numthreads) : Thread numthreads ⊕ α → Thread numthreads := Sum.elim id thread

theorem returned_takeAll {h : List (Event (Thread numthreads) (Op N) (Res N))}
    (hl : (client numthreads data).takeAll k h = some k') : k'.main = .returned ↔ k.main = .returned := by
  induction h generalizing k with
  | nil =>
    cases hl
    exact Iff.rfl
  | cons e h ih =>
    obtain ⟨m, hm, hl⟩ := Option.bind_eq_some_iff.mp hl
    refine (ih hl).trans ?_
    cases taken_of_takes hm with
    | push n hp hi | pop hp hi | pushed hp | popped r hp => exact Iff.rfl
    | main hp hg | found n hp | nothing hp => simp [hp]

/-- A total is printed when the main thread is done, and only then. -/
theorem printed_of_run {z : Workers numthreads × σ} {h : List UInt64} {D : Guard _ _}
    (hr : Run ((client numthreads data).driving P) D (Workers.initial numthreads, s) h z) :
    h.length = if z.1.main = .returned then 1 else 0 := by
  refine hr.invariant (I := fun h z => h.length = if z.1.main = .returned then 1 else 0) rfl ?_
  rintro h ⟨k, s⟩ a ⟨k', s'⟩ hi _ hu
  rw [List.length_append, hi]
  obtain ⟨b, rfl, hb, -⟩ | ⟨b, rfl, -, hl⟩ := Client.driving_cases hu
  · cases b with
    | some t =>
      obtain ⟨w, -, hmain, -⟩ := work_cases (show work k t = some k' from hb)
      simp [Client.driving, client, hmain]
    | none =>
      replace hb : workMain k = some k' := hb
      unfold workMain at hb
      split at hb
      · rename_i hm
        simp only [Option.ite_none_right_eq_some, Option.some.injEq] at hb
        obtain ⟨-, rfl⟩ := hb
        simp [Client.driving, client, hm]
      · rename_i c hm
        cases hb
        simp [Client.driving, client, hm]
      all_goals cases hb
  · simp [Client.driving, returned_takeAll hl]

/-- `testone` ends over a lively stack: every worker is done, and the main thread has emptied the stack
and has returned. -/
theorem Lively.ends (hP : Lively P C R thread μ) (hn : 0 < numthreads) (hR : R s (Atomic.initial _ (lifo N)))
    {f : ℕ → Workers numthreads × σ} {act : ℕ → Option (Thread numthreads ⊕ α)}
    (he : Execution ((client numthreads data).driving P) (Client.both Free C) f act)
    (h0 : f 0 = (Workers.initial numthreads, s))
    (hfair : FairTo (actor thread) ((client numthreads data).driving P) (Client.both Free C) f act)
    (htoss : Tossed P f act) : ∃ n, (∀ t, ((f n).1.worker t).isDone) ∧ (f n).1.main = .returned ∧
      ∃ x, R (f n).2 x ∧ x.obj = [] := by
  have hstart : Kept data R (f 0) (Atomic.initial _ (lifo N)) := by
    rw [h0]
    exact ⟨hR, .initial, fun t ht => absurd rfl ht⟩
  obtain ⟨g, hg⟩ := he.exists_follows (S := Leads P μ) hstart fun s a u x hk hc hu => hP.step hk hc hu
  -- only so many pushes
  obtain ⟨n₁, -, hpush⟩ := Execution.exists_without act
    (fun m a => ∃ t n, Event.call (some t) (.push n) ∈ Client.between P (f m) a) (fun m => rounds (f m)) 0
    (fun m _ => by
      cases ha : act m with
      | none => rw [he.idle m ha]
      | some a => exact (Nat.le_add_right ..).trans ((hg m).2.2 a ha).1)
    (fun m a _ ha ⟨t, n, hmem⟩ => by
      have hle := ((hg m).2.2 a ha).1
      have hpos : 0 < (Client.between P (f m) a).countP isPush := List.countP_pos_iff.mpr ⟨_, hmem, rfl⟩
      show rounds (f (m + 1)) < rounds (f m)
      simp only at hle
      omega)
  -- and then only so many calls
  choose l hl using fun t => htoss t n₁ fun m a n hm ha hmem => hpush m a hm ha ⟨t, n, hmem⟩
  obtain ⟨n₂, -, hstill⟩ := Execution.exists_without act (fun _ _ => True)
    (fun m => way μ (f m, g m)) (Finset.univ.sup l)
    (fun m hm => by
      cases ha : act m with
      | none => rw [he.idle m ha, (hg m).2.1 ha]
      | some a =>
        exact (((hg m).2.2 a ha).2 fun t op =>
          hl t m a op ((Finset.le_sup (Finset.mem_univ t)).trans hm) ha).le)
    (fun m a hm ha _ => ((hg m).2.2 a ha).2 fun t op =>
      hl t m a op ((Finset.le_sup (Finset.mem_univ t)).trans hm) ha)
  have hnone : ∀ m, n₂ ≤ m → act m = none := fun m hm => by
    cases ha : act m with
    | none => rfl
    | some a => exact absurd trivial (hstill m a hm ha)
  have hkept := (hg n₂).1
  obtain ⟨hdone, hmain⟩ := hP.finished hn hkept fun a hc => hfair.stuck he hnone hc
  exact ⟨n₂, hdone, hmain, g n₂, hkept.refines, hkept.fits.empty (.inl (by rw [hmain]; trivial))⟩

end Over

end Multicore.Stacks.TestOne
