/-
What is known of the course of a run over a sound store.

Where the entries of the cache obey the rule, what a run does to describe a
method is a number of moves, with a bound on the questions among them, and
a description is bare. `Toured` says this of each method that is entered;
for the rest it is the course. The statements about a whole run that need
no more are inductions over it.
-/
import CallTrace.Proofs.Run.Course
import CallTrace.Proofs.Run.Describe

namespace CallTrace.Run

open Cache (bareRule)

variable {σ : Type}

/-- With `levels` levels left, the calls `cs` and the blocks `bs` of a
method at a depth are toured from one state to another. -/
inductive Toured (t : Tracer σ) : Nat → Int → List CallSite → List Block →
    State σ → Tour → State σ → Prop where
  | done {levels : Nat} {depth : Int} {s : State σ} :
    Toured t levels depth [] [] s .done s
  | block {levels : Nat} {depth : Int} {b : Block} {bs : List Block}
      {s s' : State σ} {T : Tour}
      (rest : Toured t levels depth b.calls bs s T s') :
    Toured t levels depth [] (b :: bs) s (.block b T) s'
  | passed {levels : Nat} {depth : Int} {c : CallSite}
      {cs : List CallSite} {bs : List Block} {s s' : State σ} {T : Tour}
      (h : c.decision ≠ .stepInto ∨ s.session.cancelled = true)
      (rest : Toured t levels depth cs bs s T s') :
    Toured t levels depth (c :: cs) bs s (.passed c T) s'
  | leaf {levels : Nat} {depth : Int} {c : CallSite}
      {cs : List CallSite} {bs : List Block} {s s' : State σ} {T : Tour}
      {a : Analysis} (hc : c.decision = .stepInto) (hlive : Live depth s)
      (ha : Unentered levels s c.key a)
      (rest : Toured t levels depth cs bs s T s') :
    Toured t levels depth (c :: cs) bs s (.leaf c a T) s'
  | failed {levels : Nat} {depth : Int} {c : CallSite}
      {cs : List CallSite} {bs : List Block} {s s₁ s' : State σ} {T : Tour}
      {a : Analysis} {n : Nat} {told : Bool}
      (hc : c.decision = .stepInto) (hlive : Live depth s)
      (hnew : Enterable s.session c.key)
      (hmoves : Moves t n (t.opened (frameOf c depth) s) s₁)
      (hn : 0 ≤ t.maxSuggestions → (n : Int) ≤ 1 + t.maxSuggestions)
      (ha : IsLeaf c.key a)
      (rest : Toured t (levels + 1) depth cs bs
        (t.closed (frameOf c depth) a told s₁) T s') :
    Toured t (levels + 1) depth (c :: cs) bs s (.failed c a T) s'
  | entered {levels : Nat} {depth : Int} {c : CallSite}
      {cs : List CallSite} {bs : List Block} {s s₁ s₂ s' : State σ}
      {I T : Tour} {b : Analysis} {n : Nat}
      (hc : c.decision = .stepInto) (hlive : Live depth s)
      (hnew : Enterable s.session c.key)
      (hmoves : Moves t n (t.opened (frameOf c depth) s) s₁)
      (hn : 0 ≤ t.maxSuggestions → (n : Int) ≤ 1 + t.maxSuggestions)
      (hb : b.Bare c.key)
      (inside : Toured t levels (depth + 1) [] b.blocks s₁ I s₂)
      (rest : Toured t (levels + 1) depth cs bs
        (t.closed (frameOf c depth) (expanded b I) true s₂) T s') :
    Toured t (levels + 1) depth (c :: cs) bs s (.entered c b I T) s'

/-- Between two blocks no call is left over. -/
theorem Toured.calls_nil {t : Tracer σ} {levels : Nat} {depth : Int}
    {bs : List Block} {s s' : State σ} {T : Tour}
    (h : Toured t levels depth [] bs s T s') : T.calls = [] := by
  cases h <;> rfl

/-- The calls of a method that was entered and described are those of the
tour of its blocks. -/
theorem Toured.calls_expanded {t : Tracer σ} {levels : Nat} {depth : Int}
    {bs : List Block} {s s' : State σ} {I : Tour}
    (h : Toured t levels depth [] bs s I s') (b : Analysis) :
    (expanded b I).calls = I.made := by
  rw [Tour.made, h.calls_nil]
  rfl

/-- Over a sound store a course is a tour, and leaves the store sound. -/
theorem Course.toured {t : Tracer σ} {levels : Nat} {depth : Int}
    {cs : List CallSite} {bs : List Block} {s s' : State σ} {T : Tour}
    (h : Course t levels depth cs bs s T s')
    (hs : s.world.store.Obeys bareRule) :
    Toured t levels depth cs bs s T s' ∧
      s'.world.store.Obeys bareRule := by
  induction h with
  | done => exact ⟨.done, hs⟩
  | block _ ih => exact (ih hs).imp_left .block
  | passed hpass _ ih => exact (ih hs).imp_left (.passed hpass)
  | leaf hc hlive ha _ ih => exact (ih hs).imp_left (.leaf hc hlive ha)
  | @failed levels depth c cs bs s s₁ s' T r a told hc hlive hnew hbase ha _
      ih =>
    obtain ⟨n, hm, hsettled, hn⟩ := t.base_moves hnew.isPlain
      (s := t.opened (frameOf c depth) s) hs
    rw [hbase] at hm hsettled
    have hleaf : IsLeaf c.key a := by
      cases ha with
      | missing | failed => exact ⟨_, _, _, by simp, rfl⟩
      | leaf ha =>
        rcases hsettled a rfl with hbare | ⟨-, now, rfl⟩
        · exact absurd hbare.status ha
        · exact ⟨_, _, _, by simp, rfl⟩
    refine (ih ?_).imp_left (.failed hc hlive hnew hm hn hleaf)
    rw [Tracer.closed_store]
    exact hm.obeys hs
  | @entered levels depth c cs bs s s₁ s₂ s' I T b hc hlive hnew hbase
      hcomplete _ _ ihI ih =>
    obtain ⟨n, hm, hsettled, hn⟩ := t.base_moves hnew.isPlain
      (s := t.opened (frameOf c depth) s) hs
    rw [hbase] at hm hsettled
    have hbare : b.Bare c.key := by
      rcases hsettled b rfl with hbare | ⟨-, now, rfl⟩
      · exact hbare
      · exact absurd hcomplete (by simp [Analysis.placeholder])
    obtain ⟨hI, hobeys⟩ := ihI (hm.obeys hs)
    refine (ih ?_).imp_left (.entered hc hlive hnew hm hn hbare hI)
    rw [Tracer.closed_store]
    exact hobeys

/-- A run tours the call that stands for its root. -/
theorem Tracer.run_toured (t : Tracer σ) {s : State σ}
    (hs : s.world.store.Obeys bareRule) :
    ∃ T a s', Toured t (s.session.limits.maxDepth + 1) (-1)
        [rootCall s.session.root] [] s T s' ∧
      Starts (rootCall s.session.root) a .done T ∧
      Gives s.session.root (t.run s).1 s' a ∧
      s'.world.store.Obeys bareRule ∧
      (t.run s).2 = concluded (t.run s).1 s' := by
  obtain ⟨T, a, s', hT, hstarts, hgives, hend⟩ := t.run_course s
  obtain ⟨hT', hobeys⟩ := hT.toured hs
  exact ⟨T, a, s', hT', hstarts, hgives, hobeys, hend⟩

end CallTrace.Run
