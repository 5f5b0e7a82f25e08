import ClassBackend.Proofs.Machine.Replay
import ClassBackend.Proofs.Meaning.Selection
import ClassBackend.Proofs.Shapes

/-! Which branch a case takes. The tests stand one after another, each in front of its branch. A
machine that goes through them comes out at the branch whose class is nearest to that of the object,
or at the end where there is none; what a backend has to show for that is one step past a test that
fails, and one step through a test that holds. -/
namespace ClassBackend

open Hierarchy Lowering Machine Meaning

section Branches

/-- The branch of that number is the one for objects of the class: its type is the class or an
ancestor, no other branch has a nearer one, and no earlier branch has the same. -/
def Nearest (ds : List ClassDecl) (cls : String) (bs : List (Branch Expr)) (n : Nat) : Prop :=
  ∃ b, bs[n]? = some b ∧ Descends ds cls b.ty ∧
    (∀ c ∈ bs, Descends ds cls c.ty → Descends ds b.ty c.ty) ∧
    ∀ m c, m < n → bs[m]? = some c → c.ty ≠ b.ty

variable {p : Program} {t : ClassTable} {cx : Context} {bs : List (Branch Expr)}
variable {cs : Transcript.Sources} {k : ClassLayout} {n m : Nat}

namespace Transcript.Classed

theorem entry (h : Classed cx 0 bs cs) {cls : ClassLayout} {b : Branch Expr}
    (mem : (cls, b, n) ∈ cs) : bs[n]? = some b ∧ cx.classes.find b.ty = .ok cls := by
  have there : (b, n) ∈ bs.zipIdx := h.1 ▸ List.mem_map_of_mem mem
  exact ⟨List.mem_zipIdx_iff_getElem?.mp there, h.2 _ mem⟩

theorem source (h : Classed cx 0 bs cs) {b : Branch Expr} (there : bs[n]? = some b) :
    ∃ cls, (cls, b, n) ∈ cs := by
  have mem : (b, n) ∈ cs.map (·.2) := by
    rw [h.1]
    exact List.mem_zipIdx_iff_getElem?.mpr there
  obtain ⟨⟨cls, _, _⟩, hc, same⟩ := List.mem_map.mp mem
  cases same
  exact ⟨cls, hc⟩

theorem known (h : Classed cx 0 bs cs) : ∀ c ∈ cs, c.1 ∈ cx.classes.classes :=
  fun c hc => ClassTable.mem_of_find (h.2 c hc)

theorem index (h : Classed cx 0 bs cs) {front back : Transcript.Sources}
    {c : ClassLayout × Branch Expr × Nat} (parts : cs = front ++ c :: back) :
    c.2.2 = front.length := by
  have numbers : cs.map (·.2.2) = List.range' 0 bs.length := by
    have both := congrArg (List.map Prod.snd) h.1
    rwa [List.map_map, List.zipIdx_map_snd] at both
  have inside : (cs.map (·.2.2))[front.length]? = some c.2.2 := by
    rw [parts]
    simp
  rw [numbers] at inside
  simpa using (List.getElem?_eq_some_iff.mp inside).2.symm

end Transcript.Classed

variable (h : ClassTable.build p = .ok t) (classed : Transcript.Classed ⟨t, k⟩ 0 bs cs)
variable {C : ClassLayout} (hC : C ∈ t.classes)

include h classed hC

theorem covers_branch {cls : ClassLayout} {b : Branch Expr} (mem : (cls, b, n) ∈ cs) :
    cls.covers C.tag = true ↔ Descends p.classes C.name b.ty := by
  have found := (classed.entry mem).2
  rw [← ClassTable.name_of_find found]
  exact ClassTable.covers_iff h (ClassTable.mem_of_find found) hC

/-- The first test that holds is that of the nearest branch. -/
theorem nearest_of_tested {c : ClassLayout × Branch Expr × Nat}
    (found : (testOrder cs).find? (·.1.covers C.tag) = some c) :
    Nearest p.classes C.name bs c.2.2 := by
  obtain ⟨cls, b, n⟩ := c
  obtain ⟨covered, greatest, first⟩ := best_tested h classed.known found
  have mem : (cls, b, n) ∈ cs := List.mem_of_find?_eq_some first
  obtain ⟨there, named⟩ := classed.entry mem
  refine ⟨b, there, (covers_branch h classed hC mem).mp covered, fun d hd up => ?_,
    fun m d less there' same => ?_⟩
  · obtain ⟨i, hi⟩ := List.mem_iff_getElem?.mp hd
    obtain ⟨cls', mem'⟩ := classed.source hi
    have covers' := (covers_branch h classed hC mem').mpr up
    have lower : cls'.tag ≤ cls.tag := greatest _ mem' covers'
    have nested : cls'.covers cls.tag = true := by
      simp only [ClassLayout.covers, Bool.and_eq_true, decide_eq_true_eq] at covered covers' ⊢
      exact ⟨lower, Nat.le_trans covered.1 covers'.2⟩
    rw [← ClassTable.name_of_find named]
    exact (covers_branch h classed (ClassTable.mem_of_find named) mem').mp nested
  · obtain ⟨_, front, back, parts, others⟩ := List.find?_eq_some_iff_append.mp first
    have place : n = front.length := classed.index parts
    obtain ⟨cls', mem'⟩ := classed.source there'
    have alike : cls'.name = cls.name := by
      rw [ClassTable.name_of_find (classed.entry mem').2, same, ClassTable.name_of_find named]
    obtain ⟨front', back', parts'⟩ := List.append_of_mem mem'
    have place' : m = front'.length := classed.index parts'
    have early : (cls', d, m) ∈ front := by
      have inside : cs[m]? = some (cls', d, m) := by
        rw [parts', place']
        simp
      rw [parts, List.getElem?_append_left (place ▸ less)] at inside
      exact List.mem_of_getElem? inside
    simpa [alike] using others _ early

theorem none_of_tested (none : (testOrder cs).find? (·.1.covers C.tag) = none) :
    ∀ b ∈ bs, ¬ Descends p.classes C.name b.ty := by
  intro b hb up
  obtain ⟨i, hi⟩ := List.mem_iff_getElem?.mp hb
  obtain ⟨cls, mem⟩ := classed.source hi
  have covered := (covers_branch h classed hC mem).mpr up
  exact List.find?_eq_none.mp none _ ((testOrder_perm cs).mem_iff.mpr mem) covered

omit hC in
theorem Nearest.unique (hn : Nearest p.classes C.name bs n) (hm : Nearest p.classes C.name bs m) :
    n = m := by
  obtain ⟨b, there, up, near, first⟩ := hn
  obtain ⟨c, there', up', near', first'⟩ := hm
  have same : b.ty = c.ty := by
    obtain ⟨cls, mem⟩ := classed.source there
    obtain ⟨cls', mem'⟩ := classed.source there'
    have named := (classed.entry mem).2
    have named' := (classed.entry mem').2
    have inside := ClassTable.mem_of_find named
    have inside' := ClassTable.mem_of_find named'
    have below : cls'.covers cls.tag = true := by
      refine (covers_branch h classed inside mem').mpr ?_
      rw [ClassTable.name_of_find named]
      exact near c (List.mem_of_getElem? there') up'
    have above : cls.covers cls'.tag = true := by
      refine (covers_branch h classed inside' mem).mpr ?_
      rw [ClassTable.name_of_find named']
      exact near' b (List.mem_of_getElem? there) up
    simp only [ClassLayout.covers, Bool.and_eq_true, decide_eq_true_eq] at below above
    have tags : cls.tag = cls'.tag := by omega
    have alike := ClassTable.eq_of_tag h inside inside' tags
    rw [← ClassTable.name_of_find named, ← ClassTable.name_of_find named', alike]
  rcases Nat.lt_trichotomy n m with less | rfl | less
  · exact absurd same (first' n b less there)
  · rfl
  · exact absurd same.symm (first m c less there')

end Branches

section Ranges

variable {cls : ClassLayout} {g : Nat}

theorem out_of_range (h : cls.covers g = false) :
    holds .lt g cls.tag = true ∨ holds .gt g cls.lastTag = true := by
  simp only [ClassLayout.covers, holds, Bool.and_eq_false_iff, decide_eq_false_iff_not,
    decide_eq_true_eq] at h ⊢
  omega

theorem in_range (h : cls.covers g = true) :
    holds .lt g cls.tag = false ∧ holds .gt g cls.lastTag = false := by
  simp only [ClassLayout.covers, holds, Bool.and_eq_true, decide_eq_true_eq,
    decide_eq_false_iff_not] at h ⊢
  omega

end Ranges

namespace Transcript

theorem split_cases {α : Type} {front back front' back' : List α} {a a' : α}
    (h : front ++ a :: back = front' ++ a' :: back') :
    (front = front' ∧ a = a') ∨ (∃ mid, front = front' ++ a' :: mid) ∨
      ∃ mid, front' = front ++ a :: mid := by
  rcases List.append_eq_append_iff.mp h with ⟨mid, rfl, rest⟩ | ⟨mid, rfl, rest⟩
  · cases mid with
    | nil => exact .inl ⟨by simp, (List.cons.inj rest).1⟩
    | cons x mid =>
      obtain ⟨rfl, _⟩ := List.cons.inj rest
      exact .inr (.inr ⟨mid, rfl⟩)
  · cases mid with
    | nil => exact .inl ⟨by simp, (List.cons.inj rest).1.symm⟩
    | cons x mid =>
      obtain ⟨rfl, _⟩ := List.cons.inj rest
      exact .inr (.inl ⟨mid, rfl⟩)

section Places

variable {B : Backend} {ι : Type}

/-- A place in this part of the code, which stands behind the other. -/
def PlaceIn (before part l : List ι) : Prop :=
  ∃ front back, part = front ++ back ∧ back ≠ [] ∧ l = before ++ front

/-- A place in the tests of a case, which stand behind that code. No place in a branch is one. -/
def TestPlace (before ts : List ι) (qs : List (Stretch B ι)) (l : List ι) : Prop :=
  PlaceIn before ts l ∨ ∃ front q back, qs = front ++ q :: back ∧
    (PlaceIn (before ++ ts ++ Stretch.codes front) q.tests l ∨
      PlaceIn (before ++ ts ++ Stretch.codes front ++ (q.tests ++ q.body ++ q.leave)) q.next l)

variable {before part ts l : List ι} {qs front back front' back' : List (Stretch B ι)}
variable {q q' : Stretch B ι}

namespace Stretch

@[simp] theorem codes_nil : codes ([] : List (Stretch B ι)) = [] := rfl

@[simp] theorem codes_cons : codes (q :: qs) = q.code ++ codes qs := rfl

@[simp] theorem codes_append : codes (front ++ back) = codes front ++ codes back :=
  List.flatMap_append

end Stretch

theorem PlaceIn.bounds (h : PlaceIn before part l) :
    before.length ≤ l.length ∧ l.length < before.length + part.length := by
  obtain ⟨front, back, rfl, more, rfl⟩ := h
  have := List.length_pos_iff.mpr more
  simp only [List.length_append]
  omega

theorem split_unique (distinct : (qs.map (·.number)).Nodup) (parts : qs = front ++ q :: back)
    (parts' : qs = front' ++ q' :: back') (same : q.number = q'.number) :
    front = front' ∧ q = q' := by
  rcases split_cases (parts.symm.trans parts') with both | ⟨mid, early⟩ | ⟨mid, late⟩
  · exact both
  · rw [parts, early, List.append_assoc, List.map_append, List.nodup_append] at distinct
    have twice := (List.nodup_cons.mp distinct.2.1).1
    exact absurd (by simp [same]) twice
  · rw [parts', late, List.append_assoc, List.map_append, List.nodup_append] at distinct
    have twice := (List.nodup_cons.mp distinct.2.1).1
    exact absurd (by simp [same]) twice

def bodyPlace (before ts : List ι) (front : List (Stretch B ι)) (q : Stretch B ι) : List ι :=
  before ++ ts ++ Stretch.codes front ++ q.tests

theorem bodyPlace_lt (before ts : List ι) (leaves : q.leave ≠ []) {mid : List (Stretch B ι)}
    (h : front' = front ++ q :: mid) :
    (bodyPlace before ts front q).length < (before ++ ts ++ Stretch.codes front').length := by
  have := List.length_pos_iff.mpr leaves
  simp only [h, bodyPlace, Stretch.codes_append, Stretch.codes_cons, Stretch.code,
    List.length_append]
  omega

theorem bodyPlace_inj (leaves : ∀ q ∈ qs, q.leave ≠ []) (parts : qs = front ++ q :: back)
    (parts' : qs = front' ++ q' :: back')
    (same : bodyPlace before ts front q = bodyPlace before ts front' q') :
    front = front' ∧ q = q' := by
  have lengths := congrArg List.length same
  rcases split_cases (parts.symm.trans parts') with both | ⟨mid, early⟩ | ⟨mid, late⟩
  · exact both
  · have := bodyPlace_lt before ts (leaves q' (by simp [parts'])) early
    simp only [bodyPlace, List.length_append] at lengths this
    omega
  · have := bodyPlace_lt before ts (leaves q (by simp [parts])) late
    simp only [bodyPlace, List.length_append] at lengths this
    omega

theorem bodyPlace_ne_end (before ts : List ι) (leaves : ∀ q ∈ qs, q.leave ≠ [])
    (parts : qs = front ++ q :: back) :
    bodyPlace before ts front q ≠ before ++ ts ++ Stretch.codes qs := by
  intro same
  have less := bodyPlace_lt before ts (leaves q (by simp [parts])) parts
  rw [same] at less
  exact Nat.lt_irrefl _ less

theorem TestPlace.ne_body (h : TestPlace before ts qs l) (leaves : ∀ q ∈ qs, q.leave ≠ [])
    (parts : qs = front ++ q :: back) : l.length ≠ (bodyPlace before ts front q).length := by
  rcases h with entry | ⟨front', q', back', parts', tests⟩
  · have := entry.bounds
    simp only [bodyPlace, List.length_append]
    omega
  · have later := List.length_pos_iff.mpr (leaves q (by simp [parts]))
    have inside : (before ++ ts ++ Stretch.codes front').length ≤ l.length ∧
        l.length < (before ++ ts ++ Stretch.codes (front' ++ [q'])).length := by
      rcases tests with tests | next
      · have := tests.bounds
        simp only [Stretch.codes_append, Stretch.codes_cons, Stretch.code, List.length_append] at *
        omega
      · have := next.bounds
        simp only [Stretch.codes_append, Stretch.codes_cons, Stretch.codes_nil, Stretch.code,
          List.length_append, List.length_nil] at *
        omega
    rcases split_cases (parts.symm.trans parts') with ⟨rfl, rfl⟩ | ⟨mid, early⟩ | ⟨mid, late⟩
    · rcases tests with tests | next
      · have := tests.bounds
        simp only [bodyPlace, List.length_append] at *
        omega
      · have := next.bounds
        simp only [bodyPlace, List.length_append] at *
        omega
    · simp only [early, bodyPlace, Stretch.codes_append, Stretch.codes_cons, Stretch.codes_nil,
        List.length_append, List.length_nil] at *
      omega
    · have := bodyPlace_lt before ts (leaves q (by simp [parts])) late
      omega

theorem TestPlace.lt_end (h : TestPlace before ts qs l) :
    l.length < (before ++ ts ++ Stretch.codes qs).length := by
  rcases h with entry | ⟨front, q, back, rfl, tests | next⟩
  · have := entry.bounds
    simp only [List.length_append]
    omega
  · have := tests.bounds
    simp only [Stretch.codes_append, Stretch.codes_cons, Stretch.code, List.length_append] at *
    omega
  · have := next.bounds
    simp only [Stretch.codes_append, Stretch.codes_cons, Stretch.code, List.length_append] at *
    omega

theorem PlaceIn.starts (h : PlaceIn before part l) : l <+: before ++ part := by
  obtain ⟨front, rest, rfl, _, rfl⟩ := h
  exact ⟨rest, by rw [List.append_assoc]⟩

theorem TestPlace.starts (h : TestPlace before ts qs l) :
    l <+: before ++ ts ++ Stretch.codes qs := by
  rcases h with entry | ⟨front, q, back, rfl, tests | next⟩
  · exact entry.starts.trans (List.prefix_append ..)
  · refine tests.starts.trans ⟨q.body ++ (q.leave ++ q.next) ++ Stretch.codes back, ?_⟩
    simp [Stretch.code]
  · refine next.starts.trans ⟨Stretch.codes back, ?_⟩
    simp [Stretch.code]

theorem bodyPlace_starts (parts : qs = front ++ q :: back) :
    bodyPlace before ts front q <+: before ++ ts ++ Stretch.codes qs :=
  ⟨q.body ++ (q.leave ++ q.next) ++ Stretch.codes back, by simp [parts, bodyPlace, Stretch.code]⟩

end Places

end Transcript

/-- How a machine that runs such code is looked at. -/
structure Monitor (B : Backend) (ι : Type) where
  width : Nat
  Call : Type
  Site : Type
  engine : Site → Engine width Call
  runs : Site → List ι → Prop
  behind : (u : Site) → List ι → (engine u).Config → Prop
  value : (u : Site) → (engine u).Config → B.Value → BitVec width → Prop
  room : (u : Site) → (engine u).Config → B.Local → Prop
  slot : (u : Site) → (engine u).Config → B.Local → BitVec width → Prop

namespace Monitor

open Transcript

variable {B : Backend} {ι : Type} (X : Monitor B ι) (u : X.Site)

def Object (c : (X.engine u).Config) (x : BitVec X.width) (k : ClassLayout) : Prop :=
  ∃ y, (X.engine u).memory c x = some y ∧ y.toInt = k.tag

def Testing (before ts : List ι) (qs : List (Stretch B ι)) (c : (X.engine u).Config) : Prop :=
  ∃ l, TestPlace before ts qs l ∧ X.behind u l c

/-- In front of the tests of a case, with an object of the class for a scrutinee. -/
structure Start (t : ClassTable) (code before : List ι) (qs : List (Stretch B ι)) (v : B.Value)
    (x : BitVec X.width) (k : ClassLayout) (c : (X.engine u).Config) : Prop where
  runs : X.runs u code
  behind : X.behind u before c
  value : X.value u c v x
  object : X.Object u c x k
  room : ∀ q ∈ qs, X.room u c q.access
  words : ∀ k ∈ t.classes, ∃ y : BitVec X.width, y.toInt = k.tag

/-- At the branch of the first test that holds, or at the end of the tests. -/
def Chosen (before ts : List ι) (qs : List (Stretch B ι)) (cs : Sources) (tag : Nat)
    (x : BitVec X.width) (d : (X.engine u).Config) : Prop :=
  (∃ front q back c, qs = front ++ q :: back ∧ cs.find? (·.1.covers tag) = some c ∧
    c.2.2 = q.number ∧ X.behind u (bodyPlace before ts front q) d ∧ X.slot u d q.access x) ∨
  (cs.find? (·.1.covers tag) = none ∧ X.behind u (before ++ ts ++ Stretch.codes qs) d)

variable {X u}

section Ends

variable {before ts : List ι} {qs front back : List (Stretch B ι)} {q : Stretch B ι}
variable {d : (X.engine u).Config}
variable (place : ∀ l l' d, l <+: before ++ ts ++ Stretch.codes qs →
  l' <+: before ++ ts ++ Stretch.codes qs → X.behind u l d → X.behind u l' d → l = l')

include place

theorem not_testing_end (there : X.behind u (before ++ ts ++ Stretch.codes qs) d) :
    ¬ X.Testing u before ts qs d := by
  rintro ⟨l, test, here⟩
  have same := place _ _ d test.starts (List.prefix_refl _) here there
  exact absurd test.lt_end (by rw [same]; exact Nat.lt_irrefl _)

theorem not_testing_body (leaves : ∀ q ∈ qs, q.leave ≠ []) (parts : qs = front ++ q :: back)
    (there : X.behind u (bodyPlace before ts front q) d) : ¬ X.Testing u before ts qs d := by
  rintro ⟨l, test, here⟩
  have same := place _ _ d test.starts (bodyPlace_starts parts) here there
  exact test.ne_body leaves parts (by rw [same])

end Ends

section Chain

variable {T : Transcript B ι} {cx : Context} {vars : Resolved.Vars B} {tag : B.Raw} {v : B.Value}
variable {join : BlockName} {before ts : List ι} {qs₀ : List (Stretch B ι)} {k : ClassLayout}
variable {x : BitVec X.width} {Inv : B.State → (X.engine u).Config → Prop}

variable (T X u cx vars tag v join before ts qs₀ k x Inv) in
structure Steps : Prop where
  miss : ∀ {front back : List (Stretch B ι)} {q : Stretch B ι} {cls : ClassLayout}
    {b : Branch Expr} {s s' : Session B} {arm : B.Arm} {c : (X.engine u).Config},
    qs₀ = front ++ q :: back → T.ArmCode cx vars tag v join cls b s q arm s' →
    cls ∈ cx.classes.classes → cls.covers k.tag = false → Inv s.target c →
    X.behind u (before ++ ts ++ Stretch.codes front) c → ∃ c', Inv s'.target c' ∧
      X.behind u (before ++ ts ++ Stretch.codes (front ++ [q])) c' ∧
      ∀ d, (X.engine u).Arrives (X.Testing u before ts qs₀) c' d →
        (X.engine u).Arrives (X.Testing u before ts qs₀) c d
  hit : ∀ {front back : List (Stretch B ι)} {q : Stretch B ι} {cls : ClassLayout}
    {b : Branch Expr} {s s' : Session B} {arm : B.Arm} {c : (X.engine u).Config},
    qs₀ = front ++ q :: back → T.ArmCode cx vars tag v join cls b s q arm s' →
    cls ∈ cx.classes.classes → cls.covers k.tag = true → Inv s.target c →
    X.behind u (before ++ ts ++ Stretch.codes front) c →
    ∃ d, (X.engine u).Arrives (X.Testing u before ts qs₀) c d ∧
      X.behind u (bodyPlace before ts front q) d ∧ X.slot u d q.access x

/-- The machine comes out at the first test that holds, or at the end. -/
theorem Steps.chain (steps : Steps X u T cx vars tag v join before ts qs₀ k x Inv)
    (finish : ∀ c, X.behind u (before ++ ts ++ Stretch.codes qs₀) c → ¬ X.Testing u before ts qs₀ c)
    {s s' : Session B} {cs : Sources} {qs front : List (Stretch B ι)} {arms : List B.Arm}
    {c : (X.engine u).Config} (tests : T.Arms cx vars tag v join s cs qs arms s')
    (known : ∀ c ∈ cs, c.1 ∈ cx.classes.classes) (parts : qs₀ = front ++ qs)
    (inv : Inv s.target c) (here : X.behind u (before ++ ts ++ Stretch.codes front) c) :
    ∃ d, (X.engine u).Arrives (X.Testing u before ts qs₀) c d ∧
      X.Chosen u before ts qs₀ cs k.tag x d := by
  induction tests generalizing front c with
  | nil =>
    rw [List.append_nil] at parts
    subst parts
    exact ⟨c, .here (finish c here), .inr ⟨rfl, here⟩⟩
  | @cons s s₁ s' cls b cs q qs arm arms code rest ih =>
    have mem : cls ∈ cx.classes.classes := known (cls, b, q.number) List.mem_cons_self
    cases covered : cls.covers k.tag with
    | true =>
      obtain ⟨d, out, there, slot⟩ := steps.hit parts code mem covered inv here
      refine ⟨d, out, .inl ⟨front, q, qs, (cls, b, q.number), parts, ?_, rfl, there, slot⟩⟩
      exact List.find?_cons_of_pos covered
    | false =>
      obtain ⟨c', inv', here', onward⟩ := steps.miss parts code mem covered inv here
      obtain ⟨d, out, chosen⟩ := ih (fun c hc => known c (List.mem_cons_of_mem _ hc))
        (by rw [parts, List.append_assoc]; rfl) inv' here'
      have skipped : ((cls, b, q.number) :: cs).find? (·.1.covers k.tag) =
          cs.find? (·.1.covers k.tag) := List.find?_cons_of_neg (by simp [covered])
      refine ⟨d, onward d out, ?_⟩
      unfold Chosen at chosen ⊢
      rwa [skipped]

end Chain

end Monitor

namespace Transcript

variable {B : Backend} {ι : Type} (T : Transcript B ι) (X : Monitor B ι)

/-- Each branch of a case has its stretch of the code, where its variable has the slot. -/
def Branches (cx : Context) (bs : List (Branch Expr)) (qs : List (Stretch B ι)) : Prop :=
  (qs.map (·.number)).Perm (List.range bs.length) ∧ ∀ q ∈ qs, ∃ b vars s u s',
    bs[q.number]? = some b ∧ T.Lowered cx ((b.name, q.access) :: vars) b.body s u q.body s'

/-- The code of a case stands there: the scrutinee, the way past void, the tests with their
branches, and the abort for an object that no branch takes. -/
structure CaseAt (cx : Context) (p : Pool) (e : Expr) (bs : List (Branch Expr))
    (code before : List ι) (v : B.Value) (es gs ts : List ι) (qs : List (Stretch B ι)) : Prop where
  branches : T.Branches cx bs qs
  parts : ∃ file cs s s' ns after,
    code = before ++ es ++ gs ++ ts ++ Stretch.codes qs ++ ns ++ after ∧
    Denotes p file (.str cx.current.fileName) ∧ T.TestCode cx p e bs file v es gs ts qs cs s ∧
    T.Puts (B.abort .caseNoMatch file e.line) s.target () ns s'

variable {X} in
/-- From there, the machine comes out of the tests at the branch that is nearest for the class, with
the object in the slot of its variable, and at the end where no branch has an ancestor of it. It
comes out at no other branch, and is in none until then. -/
def Selected (ds : List ClassDecl) (cls : String) (bs : List (Branch Expr)) (u : X.Site)
    (before ts : List ι) (qs : List (Stretch B ι)) (x : BitVec X.width)
    (c : (X.engine u).Config) : Prop :=
  (∀ front q back, qs = front ++ q :: back →
    (Nearest ds cls bs q.number ↔ ∃ d, (X.engine u).Arrives (X.Testing u before ts qs) c d ∧
      X.behind u (bodyPlace before ts front q) d) ∧
    ∀ d, (X.engine u).Arrives (X.Testing u before ts qs) c d →
      X.behind u (bodyPlace before ts front q) d → X.slot u d q.access x) ∧
  ((∀ b ∈ bs, ¬ Descends ds cls b.ty) ↔ ∃ d,
    (X.engine u).Arrives (X.Testing u before ts qs) c d ∧
    X.behind u (before ++ ts ++ Stretch.codes qs) d)

/-- In the code, the tests of the case select its branch, whatever class the object has. -/
def Selects (ds : List ClassDecl) (cx : Context) (p : Pool) (code : List ι) (e : Expr)
    (bs : List (Branch Expr)) : Prop :=
  ∃ before v es gs ts qs, T.CaseAt cx p e bs code before v es gs ts qs ∧
    ∀ (u : X.Site) (c : (X.engine u).Config) (x : BitVec X.width), ∀ k ∈ cx.classes.classes,
      X.Start u cx.classes code (before ++ es ++ gs) qs v x k c →
      Selected ds k.name bs u (before ++ es ++ gs) ts qs x c

variable {T X} {cx : Context} {bs : List (Branch Expr)} {cs : Sources} {tag : B.Raw} {v : B.Value}
variable {vars : Resolved.Vars B} {join : BlockName} {s s' : Session B} {qs : List (Stretch B ι)}
variable {arms : List B.Arm} {code : List ι}

theorem Arms.numbers (h : T.Arms cx vars tag v join s cs qs arms s') :
    qs.map (·.number) = cs.map (·.2.2) := by
  induction h with
  | nil => rfl
  | cons _ _ ih => rw [List.map_cons, List.map_cons, ih]

theorem Arms.leaves (leaves : ∀ {cls b s q arm s'}, T.ArmCode cx vars tag v join cls b s q arm s' →
      q.leave ≠ []) (h : T.Arms cx vars tag v join s cs qs arms s') : ∀ q ∈ qs, q.leave ≠ [] := by
  induction h with
  | nil => simp
  | cons code _ ih =>
    rintro q (_ | ⟨_, hq⟩)
    · exact leaves code
    · exact ih q hq

theorem Arms.body (h : T.Arms cx vars tag v join s cs qs arms s') :
    ∀ q ∈ qs, ∃ cls b s u s', (cls, b, q.number) ∈ cs ∧
      T.Lowered cx ((b.name, q.access) :: vars) b.body s u q.body s' := by
  induction h with
  | nil => simp
  | cons code _ ih =>
    rintro q (_ | ⟨_, hq⟩)
    · obtain @⟨_, _, _, _, _, _, _, lowered, _, _⟩ := code
      exact ⟨_, _, _, _, _, List.mem_cons_self, lowered⟩
    · obtain ⟨cls, b, s, u, s', mem, lowered⟩ := ih q hq
      exact ⟨cls, b, s, u, s', List.mem_cons_of_mem _ mem, lowered⟩

theorem Classed.numbers (h : Classed cx 0 bs cs) : cs.map (·.2.2) = List.range bs.length := by
  have both := congrArg (List.map Prod.snd) h.1
  rw [List.map_map, List.zipIdx_map_snd] at both
  rw [List.range_eq_range']
  exact both

theorem Arms.branches (classed : Classed cx 0 bs cs)
    (h : T.Arms cx vars tag v join s (testOrder cs) qs arms s') : T.Branches cx bs qs := by
  constructor
  · rw [h.numbers, ← classed.numbers]
    exact (testOrder_perm cs).map _
  · intro q hq
    obtain ⟨cls, b, s, u, s', mem, lowered⟩ := h.body q hq
    have there := (classed.entry ((testOrder_perm cs).mem_iff.mp mem)).1
    exact ⟨b, vars, s, u, s', there, lowered⟩

/-- What the tests of a case come to, where each place of the code is one of the machine. -/
theorem selects_of_chosen {p : Program} {t : ClassTable} {k C : ClassLayout}
    (h : ClassTable.build p = .ok t) (hC : C ∈ t.classes) (classed : Classed ⟨t, k⟩ 0 bs cs)
    (numbers : (qs.map (·.number)).Perm (List.range bs.length)) (leaves : ∀ q ∈ qs, q.leave ≠ [])
    {u : X.Site} {before ts : List ι} {c d : (X.engine u).Config} {x : BitVec X.width}
    (place : ∀ l l' d, l <+: before ++ ts ++ Stretch.codes qs →
      l' <+: before ++ ts ++ Stretch.codes qs → X.behind u l d → X.behind u l' d → l = l')
    (out : (X.engine u).Arrives (X.Testing u before ts qs) c d)
    (chosen : X.Chosen u before ts qs (testOrder cs) C.tag x d) :
    Selected p.classes C.name bs u before ts qs x c := by
  have distinct : (qs.map (·.number)).Nodup := numbers.nodup_iff.mpr List.nodup_range
  rcases chosen with ⟨front, q, back, e, parts, found, number, there, slot⟩ | ⟨none, there⟩
  · have nearest : Nearest p.classes C.name bs q.number :=
      number ▸ nearest_of_tested h classed hC found
    have only {front' q' back' d'} (parts' : qs = front' ++ q' :: back')
        (out' : (X.engine u).Arrives (X.Testing u before ts qs) c d')
        (there' : X.behind u (bodyPlace before ts front' q') d') : d' = d ∧ q' = q := by
      cases out.unique out'
      have same := place _ _ d (bodyPlace_starts parts) (bodyPlace_starts parts') there there'
      exact ⟨rfl, (bodyPlace_inj leaves parts parts' same).2.symm⟩
    refine ⟨fun front' q' back' parts' => ⟨⟨fun near => ?_, fun ⟨d', out', there'⟩ => ?_⟩,
      fun d' out' there' => ?_⟩, fun none => ?_, fun ⟨d', out', there'⟩ => ?_⟩
    · have same : q.number = q'.number := Nearest.unique h classed nearest near
      obtain ⟨rfl, rfl⟩ := split_unique distinct parts parts' same
      exact ⟨d, out, there⟩
    · exact (only parts' out' there').2 ▸ nearest
    · obtain ⟨rfl, rfl⟩ := only parts' out' there'
      exact slot
    · obtain ⟨b, hb, up, _⟩ := nearest
      exact absurd up (none b (List.mem_of_getElem? hb))
    · cases out.unique out'
      have same := place _ _ d (bodyPlace_starts parts) (List.prefix_refl _) there there'
      exact absurd same (bodyPlace_ne_end before ts leaves parts)
  · have absent := none_of_tested h classed hC none
    have never {front' q' back' d'} (parts' : qs = front' ++ q' :: back')
        (out' : (X.engine u).Arrives (X.Testing u before ts qs) c d')
        (there' : X.behind u (bodyPlace before ts front' q') d') : False := by
      cases out.unique out'
      have same := place _ _ d (bodyPlace_starts parts') (List.prefix_refl _) there' there
      exact bodyPlace_ne_end before ts leaves parts' same
    refine ⟨fun front' q' back' parts' => ⟨⟨fun near => ?_, fun ⟨d', out', there'⟩ => ?_⟩,
      fun d' out' there' => ?_⟩, fun _ => ⟨d, out, there⟩, fun _ => absent⟩
    · obtain ⟨b, hb, up, _⟩ := near
      exact absurd up (absent b (List.mem_of_getElem? hb))
    · exact (never parts' out' there').elim
    · exact (never parts' out' there').elim

theorem Has.selects (law : T.account.Lawful) (legible : T.Legible) {p : Program} {t : ClassTable}
    {k : ClassLayout} {pool : Pool} (h : ClassTable.build p = .ok t)
    (leaves : ∀ {vars tag v join cls b s q arm s'},
      T.ArmCode ⟨t, k⟩ vars tag v join cls b s q arm s' → q.leave ≠ [])
    (place : ∀ {u l l' d}, X.runs u code → l <+: code → l' <+: code → X.behind u l d →
      X.behind u l' d → l = l')
    (decides : ∀ {e bs file v es gs ts qs cs s before after},
      code = before ++ es ++ gs ++ ts ++ Stretch.codes qs ++ after →
      T.TestCode ⟨t, k⟩ pool e bs file v es gs ts qs cs s →
      ∀ {u c x}, ∀ C ∈ t.classes, X.Start u t code (before ++ es ++ gs) qs v x C c →
        ∃ d, (X.engine u).Arrives (X.Testing u (before ++ es ++ gs) ts qs) c d ∧
          X.Chosen u (before ++ es ++ gs) ts qs (testOrder cs) C.tag x d)
    {a : Info} {e : Expr} (has : T.Has ⟨t, k⟩ pool code (.caseOf a e bs)) :
    T.Selects X p.classes ⟨t, k⟩ pool code e bs := by
  obtain ⟨_, is, ⟨before, after, rfl⟩, emits⟩ := has
  obtain @⟨file, w, cs, qs, s', _, es, gs, ts, ns, ms, named, tests, refused⟩ :=
    emits.caseOf law legible
  have here : before ++ (es ++ (gs ++ (ts ++ (Stretch.codes qs ++ (ns ++ ms))))) ++ after =
      before ++ es ++ gs ++ ts ++ Stretch.codes qs ++ ns ++ (ms ++ after) := by
    simp only [List.append_assoc]
  have branches : T.Branches ⟨t, k⟩ bs qs := by
    obtain @⟨_, _, _, _, _, _, _, _, _, _, _, _, classed, chain⟩ := tests
    exact chain.branches classed
  refine ⟨before, w, es, gs, ts, qs,
    ⟨branches, file, cs, s', _, ns, ms ++ after, here, named, tests, refused⟩,
    fun u c x C hC start => ?_⟩
  have split : before ++ (es ++ (gs ++ (ts ++ (Stretch.codes qs ++ (ns ++ ms))))) ++ after =
      before ++ es ++ gs ++ ts ++ Stretch.codes qs ++ (ns ++ (ms ++ after)) := by
    simp only [List.append_assoc]
  have whole : before ++ es ++ gs ++ ts ++ Stretch.codes qs <+:
      before ++ (es ++ (gs ++ (ts ++ (Stretch.codes qs ++ (ns ++ ms))))) ++ after :=
    ⟨_, split.symm⟩
  obtain ⟨d, out, chosen⟩ := decides split tests C hC start
  obtain @⟨vars, tag, join, arms, _, _, s₃, _, _, _, _, _, classed, chain⟩ := tests
  exact selects_of_chosen h hC classed branches.1 (chain.leaves leaves)
    (fun l l' d hl hl' => place start.runs (hl.trans whole) (hl'.trans whole)) out chosen

end Transcript

end ClassBackend
