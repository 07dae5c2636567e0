import Multicore.Runs.Program
import Multicore.Runs.Totals
import Mathlib.Logic.Function.Basic

/-! Locks as their users see them. A lock is the accesses that its two calls make to a shared
state; the users of a lock call it in whatever way they like, as long as only who is inside
unlocks. That a lock excludes is a fact on all runs of its users, and so is that it gets
somewhere: somebody is always due whose next access counts. A client that locks and unlocks is
then verified once, for all locks. For a lock that only has to find its shared state free
both facts follow from what its accesses do. -/

namespace Multicore.Runs

/-- The accesses of a lock. An access may block; it goes on in a new local state or returns. -/
structure Lock (S L : Type*) where
  lock : L
  unlock : L
  access : S → L → Option (S × Option L)

namespace Lock

/-- Where a user stands. -/
inductive Phase (L : Type*)
  | outside | locking (l : L) | inside | unlocking (l : L)

structure Users (T S L : Type*) where
  shared : S
  phase : T → Phase L

/-- A user calls `lock` or `unlock`, or makes the next access of its call. -/
inductive Act (T : Type*)
  | lock (t : T) | unlock (t : T) | access (t : T)

variable {T S L : Type*} [DecidableEq T]

def Users.goto (s : Users T S L) (shared : S) (t : T) (p : Phase L) : Users T S L :=
  ⟨shared, Function.update s.phase t p⟩

@[simp] theorem Users.goto_self (s : Users T S L) (shared : S) (t : T) (p : Phase L) :
    (s.goto shared t p).phase t = p := Function.update_self ..

theorem Users.goto_of_ne (s : Users T S L) (shared : S) {t u : T} (h : u ≠ t) (p : Phase L) :
    (s.goto shared t p).phase u = s.phase u := Function.update_of_ne h ..

/-- Where a user is after an access of its call of `lock`, and after one of `unlock`. -/
def Phase.afterLock : Option L → Phase L
  | none => .inside
  | some l => .locking l

def Phase.afterUnlock : Option L → Phase L
  | none => .outside
  | some l => .unlocking l

def step (K : Lock S L) (s : Users T S L) : Act T → Option (Users T S L)
  | .lock t => match s.phase t with
    | .outside => some (s.goto s.shared t (.locking K.lock))
    | _ => none
  | .unlock t => match s.phase t with
    | .inside => some (s.goto s.shared t (.unlocking K.unlock))
    | _ => none
  | .access t => match s.phase t with
    | .locking l => (K.access s.shared l).map fun r => s.goto r.1 t (.afterLock r.2)
    | .unlocking l => (K.access s.shared l).map fun r => s.goto r.1 t (.afterUnlock r.2)
    | _ => none

/-- The users of a lock; the calls of `lock` are seen. -/
def users (T : Type*) [DecidableEq T] (K : Lock S L) : Program (Users T S L) (Act T) T where
  step := step K
  shows _
    | .lock t => [t]
    | _ => []

/-- All users outside. -/
def start (T L : Type*) (shared : S) : Users T S L := ⟨shared, fun _ => .outside⟩

/-- The users can come to be so with at most `max` calls of `lock`. -/
def Reached (K : Lock S L) (shared : S) (max : ℕ) (s : Users T S L) : Prop :=
  ∃ h, Run (users T K) Free (start T L shared) h s ∧ h.length ≤ max

/-- At most one user is inside. -/
def Excludes (T : Type*) [DecidableEq T] (K : Lock S L) (shared : S) (max : ℕ) : Prop :=
  ∀ s : Users T S L, Reached K shared max s → ∀ t u, s.phase t = .inside → s.phase u = .inside → t = u

/-- Who is due while a user is not outside: one whose next access is not blocked. An access that
does not end its call lowers the rank, or leaves those who are due as they are. -/
structure Serves (K : Lock S L) (shared : S) (max : ℕ) (rank : Users T S L → ℕ)
    (Due : Users T S L → T → Prop) : Prop where
  exists_due : ∀ s, Reached K shared max s → (∃ t, s.phase t ≠ .outside) → ∃ t, Due s t
  busy : ∀ s t, Reached K shared max s → Due s t → s.phase t ≠ .outside
  enabled : ∀ s t l, Reached K shared max s → Due s t → s.phase t = .locking l ∨ s.phase t = .unlocking l →
    K.access s.shared l ≠ none
  nearer : ∀ s t u, Reached K shared max s → step K s (.access t) = some u →
    u.phase t = .inside ∨ u.phase t = .outside ∨ rank u < rank s ∨
      rank u = rank s ∧ ∀ v, Due s v → v ≠ t ∧ Due u v

/-- The lock gets somewhere. -/
def Live (T : Type*) [DecidableEq T] (K : Lock S L) (shared : S) (max : ℕ) : Prop :=
  ∃ (rank : Users T S L → ℕ) (Due : Users T S L → T → Prop), Serves K shared max rank Due

/-! ### Locks that look whether their state is free -/

def Phase.Holds : Phase L → Prop
  | .inside | .unlocking _ => True
  | _ => False

/-- A call of `lock` returns when it has found the state free and has taken it, and changes nothing
before that; `unlock` frees the state at once. -/
structure Word (K : Lock S L) (Free : S → Prop) (Locks Unlocks : L → Prop) : Prop where
  lock : Locks K.lock
  unlock : Unlocks K.unlock
  tries : ∀ x l x' l', Locks l → K.access x l = some (x', some l') → Locks l' ∧ (Free x' ↔ Free x)
  takes : ∀ x l x', Locks l → K.access x l = some (x', none) → Free x ∧ ¬ Free x'
  frees : ∀ x l, Unlocks l → ∃ x', K.access x l = some (x', none) ∧ Free x'

/-- At most one user holds the lock, and it is free while nobody does; the latter if it was free
at the start. -/
structure Word.Inv (Free : S → Prop) (Locks Unlocks : L → Prop) (shared : S) (s : Users T S L) : Prop where
  locking : ∀ t l, s.phase t = .locking l → Locks l
  unlocking : ∀ t l, s.phase t = .unlocking l → Unlocks l
  exclusive : ∀ t u, (s.phase t).Holds → (s.phase u).Holds → t = u
  held : ∀ t, (s.phase t).Holds → ¬ Free s.shared
  taken : Free shared → ¬ Free s.shared → ∃ t, (s.phase t).Holds

namespace Word
variable {K : Lock S L} {Free : S → Prop} {Locks Unlocks : L → Prop} {shared x : S} {max : ℕ}
  {s u : Users T S L} {t : T} {p : Phase L}

omit [DecidableEq T] in
theorem Inv.start (shared : S) : Inv Free Locks Unlocks shared (Lock.start T L shared) :=
  ⟨nofun, nofun, fun _ _ h => h.elim, fun _ h => h.elim, fun h hn => absurd h hn⟩

/-- A user moves, and takes the lock only if it is free. -/
theorem Inv.goto (hi : Inv Free Locks Unlocks shared s) (hl : ∀ l, p = .locking l → Locks l)
    (hul : ∀ l, p = .unlocking l → Unlocks l) (hp : p.Holds → (s.phase t).Holds ∨ Free s.shared)
    (hx : ∀ v, ((s.goto x t p).phase v).Holds → ¬ Free x)
    (hx' : Free shared → ¬ Free x → ∃ v, ((s.goto x t p).phase v).Holds) :
    Inv Free Locks Unlocks shared (s.goto x t p) := by
  have hother : ∀ v, v ≠ t → p.Holds → ¬ (s.phase v).Holds := by
    intro v hv hholds hheld
    rcases hp hholds with h | h
    · exact hv (hi.exclusive v t hheld h)
    · exact hi.held v hheld h
  refine ⟨fun v l hv => ?_, fun v l hv => ?_, fun v w hv hw => ?_, hx, hx'⟩
  · rcases update_cases hv with ⟨-, hv⟩ | ⟨-, hv⟩
    · exact hl l hv
    · exact hi.locking v l hv
  · rcases update_cases hv with ⟨-, hv⟩ | ⟨-, hv⟩
    · exact hul l hv
    · exact hi.unlocking v l hv
  · by_cases hvt : v = t <;> by_cases hwt : w = t
    · exact hvt.trans hwt.symm
    · rw [hvt, Users.goto_self] at hv
      rw [Users.goto_of_ne _ _ hwt] at hw
      exact absurd hw (hother w hwt hv)
    · rw [hwt, Users.goto_self] at hw
      rw [Users.goto_of_ne _ _ hvt] at hv
      exact absurd hv (hother v hvt hw)
    · rw [Users.goto_of_ne _ _ hvt] at hv
      rw [Users.goto_of_ne _ _ hwt] at hw
      exact hi.exclusive v w hv hw

/-- A user moves without taking the lock or giving it back. -/
theorem Inv.keep (hi : Inv Free Locks Unlocks shared s) (hl : ∀ l, p = .locking l → Locks l)
    (hul : ∀ l, p = .unlocking l → Unlocks l) (hp : p.Holds ↔ (s.phase t).Holds)
    (hx : Free x ↔ Free s.shared) : Inv Free Locks Unlocks shared (s.goto x t p) := by
  have hsame : ∀ v, ((s.goto x t p).phase v).Holds ↔ (s.phase v).Holds := by
    intro v
    by_cases hv : v = t
    · rw [hv, Users.goto_self, hp]
    · rw [Users.goto_of_ne _ _ hv]
  refine hi.goto hl hul (fun h => .inl (hp.mp h)) (fun v hv => ?_) (fun h0 hfree => ?_)
  · rw [hx]
    exact hi.held v ((hsame v).mp hv)
  · rw [hx] at hfree
    exact (hi.taken h0 hfree).imp fun v => (hsame v).mpr

theorem Inv.step (hw : Word K Free Locks Unlocks) (hi : Inv Free Locks Unlocks shared s) {a : Act T}
    (hu : Lock.step K s a = some u) : Inv Free Locks Unlocks shared u := by
  cases a with
  | lock t =>
    cases hp : s.phase t <;> simp only [Lock.step, hp, Option.some.injEq, reduceCtorEq] at hu
    subst hu
    exact hi.keep (fun l h => by cases h; exact hw.lock) nofun (by rw [hp]; rfl) Iff.rfl
  | unlock t =>
    cases hp : s.phase t <;> simp only [Lock.step, hp, Option.some.injEq, reduceCtorEq] at hu
    subst hu
    exact hi.keep nofun (fun l h => by cases h; exact hw.unlock) (by rw [hp]; rfl) Iff.rfl
  | access t =>
    cases hp : s.phase t with
    | outside | inside => simp only [Lock.step, hp, reduceCtorEq] at hu
    | locking l =>
      simp only [Lock.step, hp, Option.map_eq_some_iff] at hu
      obtain ⟨⟨x, l'⟩, hr, rfl⟩ := hu
      cases l' with
      | some l' =>
        obtain ⟨hl', hx⟩ := hw.tries _ _ _ _ (hi.locking t l hp) hr
        exact hi.keep (fun l h => by cases h; exact hl') nofun (by rw [hp]; rfl) hx
      | none =>
        obtain ⟨hfree, hx⟩ := hw.takes _ _ _ (hi.locking t l hp) hr
        exact hi.goto nofun nofun (fun _ => .inr hfree) (fun _ _ => hx)
          (fun _ _ => ⟨t, by rw [Users.goto_self]; trivial⟩)
    | unlocking l =>
      simp only [Lock.step, hp, Option.map_eq_some_iff] at hu
      obtain ⟨r, hr, rfl⟩ := hu
      obtain ⟨x, hx, hfree⟩ := hw.frees s.shared l (hi.unlocking t l hp)
      obtain rfl : (x, none) = r := Option.some.inj (hx.symm.trans hr)
      -- nobody else held it
      refine hi.goto nofun nofun (fun h => h.elim) (fun v hv => ?_) (fun _ h => absurd hfree h)
      have hvt : v ≠ t := by
        rintro rfl
        rw [Users.goto_self] at hv
        exact hv.elim
      rw [Users.goto_of_ne _ _ hvt] at hv
      exact absurd (hi.exclusive v t hv (by rw [hp]; trivial)) hvt

theorem inv_of_reached (hw : Word K Free Locks Unlocks) (hs : Reached K shared max s) :
    Inv Free Locks Unlocks shared s := by
  obtain ⟨h, hr, -⟩ := hs
  exact hr.always (Inv.start shared) fun _ _ _ hi _ hu => hi.step hw hu

theorem excludes (hw : Word K Free Locks Unlocks) (shared : S) (max : ℕ) :
    Excludes T K shared max := fun _ hs t u ht hu =>
  (hw.inv_of_reached hs).exclusive t u (by rw [ht]; trivial) (by rw [hu]; trivial)

/-- While the lock is free, how far the users are from taking it. -/
def rank [Fintype T] (Free : S → Prop) [DecidablePred Free] (ρ : L → ℕ) (s : Users T S L) : ℕ :=
  if Free s.shared then ∑ t, match s.phase t with
    | .locking l => ρ l
    | _ => 0
  else 0

/-- The holder is due, or while the lock is free whoever is not outside. -/
def Due (Free : S → Prop) (s : Users T S L) (t : T) : Prop :=
  (s.phase t).Holds ∨ Free s.shared ∧ s.phase t ≠ .outside

theorem serves [Fintype T] [DecidablePred Free] (hw : Word K Free Locks Unlocks) (h0 : Free shared)
    (max : ℕ) {ρ : L → ℕ} (hρ : ∀ x l, Free x → Locks l →
      ∃ r, K.access x l = some r ∧ ∀ l', r.2 = some l' → ρ l' < ρ l) :
    Serves (T := T) K shared max (rank Free ρ) (Due Free) where
  exists_due s hs hbusy := by
    by_cases hfree : Free s.shared
    · exact hbusy.imp fun t ht => .inr ⟨hfree, ht⟩
    · exact ((hw.inv_of_reached hs).taken h0 hfree).imp fun t => .inl
  busy s t _ ht := by
    rintro hout
    rcases ht with ht | ⟨-, ht⟩
    · rw [hout] at ht
      exact ht
    · exact ht hout
  enabled s t l hs ht hp := by
    have hi := hw.inv_of_reached hs
    rcases hp with hp | hp
    · rcases ht with ht | ⟨hfree, -⟩
      · rw [hp] at ht
        exact ht.elim
      · obtain ⟨r, hr, -⟩ := hρ _ l hfree (hi.locking t l hp)
        rw [hr]
        nofun
    · obtain ⟨x, hx, -⟩ := hw.frees s.shared l (hi.unlocking t l hp)
      rw [hx]
      nofun
  nearer s t u hs hu := by
    have hi := hw.inv_of_reached hs
    cases hp : s.phase t with
    | outside | inside => simp only [Lock.step, hp, reduceCtorEq] at hu
    | unlocking l =>
      simp only [Lock.step, hp, Option.map_eq_some_iff] at hu
      obtain ⟨r, hr, rfl⟩ := hu
      obtain ⟨x, hx, -⟩ := hw.frees s.shared l (hi.unlocking t l hp)
      obtain rfl : (x, none) = r := Option.some.inj (hx.symm.trans hr)
      exact .inr (.inl (Users.goto_self ..))
    | locking l =>
      simp only [Lock.step, hp, Option.map_eq_some_iff] at hu
      obtain ⟨⟨x, l'⟩, hr, rfl⟩ := hu
      cases l' with
      | none => exact .inl (Users.goto_self ..)
      | some l' =>
        obtain ⟨-, hx⟩ := hw.tries _ _ _ _ (hi.locking t l hp) hr
        have hx' : Free (s.goto x t (Phase.afterLock (some l'))).shared ↔ Free s.shared := hx
        by_cases hfree : Free s.shared
        · refine .inr (.inr (.inl ?_))
          obtain ⟨r, hr', hlt⟩ := hρ _ l hfree (hi.locking t l hp)
          obtain rfl : r = (x, some l') := Option.some.inj (hr'.symm.trans hr)
          rw [rank, rank, if_pos hfree, if_pos (hx'.mpr hfree)]
          refine Finset.sum_lt_sum (fun v _ => ?_) ⟨t, Finset.mem_univ t, ?_⟩
          · by_cases hv : v = t
            · rw [hv, Users.goto_self, hp]
              exact (hlt l' rfl).le
            · rw [Users.goto_of_ne _ _ hv]
          · rw [Users.goto_self, hp]
            exact hlt l' rfl
        · refine .inr (.inr (.inr ⟨?_, fun v hv => ?_⟩))
          · rw [rank, rank, if_neg hfree, if_neg (hx'.not.mpr hfree)]
          · have hholds : (s.phase v).Holds := hv.resolve_right fun h => hfree h.1
            have hvt : v ≠ t := by
              rintro rfl
              rw [hp] at hholds
              exact hholds
            exact ⟨hvt, .inl (by rwa [Users.goto_of_ne _ _ hvt])⟩

/-- A lock that was free at the start gets somewhere, if a call that finds it free goes on to take it. -/
theorem live [Fintype T] [DecidablePred Free] (hw : Word K Free Locks Unlocks) (h0 : Free shared)
    (max : ℕ) {ρ : L → ℕ} (hρ : ∀ x l, Free x → Locks l →
      ∃ r, K.access x l = some r ∧ ∀ l', r.2 = some l' → ρ l' < ρ l) : Live T K shared max :=
  ⟨_, _, hw.serves h0 max hρ⟩

end Word

end Lock

end Multicore.Runs
