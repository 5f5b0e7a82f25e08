import ClassBackend.CommandLine.Run
import Mathlib.Data.List.TakeWhile

/-! Where the artifacts of a run go. An extension is taken off the given path and then put in the
place of the present one, so an artifact is called after its base only where the base has no
extension of its own. -/
namespace ClassBackend

namespace Path

theorem dropTrailing_suffix (cs : List Char) : dropTrailing cs <:+ cs := by
  fun_induction dropTrailing cs with
  | case1 cs ih => exact ih.trans (List.suffix_cons _ _)
  | case2 => exact List.nil_suffix
  | case3 cs ih => exact ih.trans ((List.suffix_cons _ _).trans (List.suffix_cons _ _))
  | case4 cs => exact List.suffix_rfl

/-- What stands before a name: nothing, or a text with a slash at its end. -/
def Opens (directory : List Char) : Prop := ∀ c ∈ directory.getLast?, c = '/'

theorem cut_last {separator : Char} {front last : List Char}
    (closed : ∀ c ∈ front.getLast?, c = separator) (free : separator ∉ last) :
    (front ++ last).reverse.takeWhile (· ≠ separator) = last.reverse ∧
      (front ++ last).reverse.dropWhile (· ≠ separator) = front.reverse := by
  have other : ∀ c ∈ last.reverse, decide (c ≠ separator) = true := by
    intro c hc
    exact decide_eq_true fun h => free (h ▸ List.mem_reverse.mp hc)
  rw [List.reverse_append, List.takeWhile_append_of_pos other, List.dropWhile_append_of_pos other]
  cases rev : front.reverse with
  | nil => simp
  | cons c more =>
    have ended : c = separator := closed c (by rw [List.getLast?_eq_head?_reverse, rev]; rfl)
    simp [ended]

/-- The name that a path ends in, if it ends in one. -/
def Names (name : List Char) : Prop :=
  name ≠ [] ∧ '/' ∉ name ∧ name ≠ ['.'] ∧ name ≠ ['.', '.']

theorem dropTrailing_ends (cs : List Char) :
    (dropTrailing cs).head? ≠ some '/' ∧
      (dropTrailing cs).takeWhile (· ≠ '/') ≠ ['.'] := by
  fun_induction dropTrailing cs with
  | case1 cs ih => exact ih
  | case2 => exact ⟨nofun, nofun⟩
  | case3 cs ih => exact ih
  | case4 cs slash dot dotSlash =>
    cases cs with
    | nil => exact ⟨nofun, nofun⟩
    | cons c cs =>
      have other : c ≠ '/' := fun h => slash cs (by rw [h])
      refine ⟨by simpa using other, ?_⟩
      rw [List.takeWhile_cons_of_pos (by simpa using other)]
      intro h
      obtain ⟨rfl, rest⟩ := List.cons.inj h
      cases cs with
      | nil => exact dot rfl
      | cons d cs =>
        have : d ≠ '/' := fun h => dotSlash cs (by rw [h])
        simp [this] at rest

theorem split?_parts {path : String} {s : Split} (h : split? path = some s) :
    Opens s.directory ∧ Names s.name ∧
      ∃ tail, path.toList = s.directory ++ s.name ++ tail ∧ (s.trailing = false ↔ tail = []) := by
  simp only [split?] at h
  split at h
  · exact nomatch h
  · rename_i named
    obtain ⟨ends, dots⟩ := dropTrailing_ends path.toList.reverse
    obtain ⟨front, whole⟩ := dropTrailing_suffix path.toList.reverse
    generalize dropTrailing path.toList.reverse = cs at h named whole ends dots
    obtain rfl := Option.some.inj h
    simp only [not_or] at named
    refine ⟨?_, ⟨named.1, ?_, ?_, named.2⟩, front.reverse, ?_, ?_⟩
    · intro c last
      have slash := List.head?_dropWhile_not (· ≠ '/') cs
      rw [List.getLast?_reverse] at last
      rw [Option.mem_def.mp last] at slash
      simpa using slash
    · intro slash
      have := List.mem_takeWhile_imp (List.mem_reverse.mp slash)
      simp at this
    · intro dot
      exact dots (List.reverse_eq_iff.mp dot)
    · rw [← List.reverse_append, List.takeWhile_append_dropWhile, ← List.reverse_append, whole,
        List.reverse_reverse]
    · have lengths := congrArg List.length whole
      rw [List.length_append] at lengths
      rw [decide_eq_false_iff_not, List.reverse_eq_nil_iff, ← List.length_eq_zero_iff]
      omega

theorem dropTrailing_name {name : List Char} (named : Names name) (above : List Char) :
    dropTrailing (name.reverse ++ above) = name.reverse ++ above := by
  obtain ⟨some, noSlash, noDot, noDots⟩ := named
  have noSlash : '/' ∉ name.reverse := fun h => noSlash (List.mem_reverse.mp h)
  have noDot : name.reverse ≠ ['.'] := fun h => noDot (List.reverse_eq_iff.mp h)
  rw [dropTrailing]
  · intro cs h
    cases rev : name.reverse with
    | nil => exact some (List.reverse_eq_nil_iff.mp rev)
    | cons c more => simp_all
  · intro h
    cases rev : name.reverse with
    | nil => exact some (List.reverse_eq_nil_iff.mp rev)
    | cons c more => simp_all
  · intro cs h
    cases rev : name.reverse with
    | nil => exact some (List.reverse_eq_nil_iff.mp rev)
    | cons c more =>
      cases more with
      | nil => simp_all
      | cons d more => simp_all

theorem split?_name {name directory : List Char} (named : Names name) (opens : Opens directory) :
    split? (String.ofList (directory ++ name)) = some ⟨directory, name, false⟩ := by
  obtain ⟨nameThere, above⟩ := cut_last opens named.2.1
  have nothing : dropTrailing (directory ++ name).reverse = (directory ++ name).reverse := by
    rw [List.reverse_append, dropTrailing_name named]
  simp only [split?, String.toList_ofList, nothing, nameThere, above, List.reverse_reverse,
    named.1, named.2.2.2, or_self, if_false, Nat.lt_irrefl, decide_false]

theorem stemAndExtension_some {name stem extension : List Char}
    (h : stemAndExtension name = (stem, some extension)) :
    name = stem ++ '.' :: extension ∧ stem ≠ [] ∧ '.' ∉ extension := by
  simp only [stemAndExtension] at h
  split at h
  · rename_i dot c rest cut
    obtain ⟨rfl, found⟩ := Prod.mk.inj h
    obtain rfl := Option.some.inj found
    have isDot := List.head?_dropWhile_not (· ≠ '.') name.reverse
    rw [cut] at isDot
    have isDot : dot = '.' := by simpa using isDot
    have whole := List.takeWhile_append_dropWhile (p := (· ≠ '.')) (l := name.reverse)
    rw [cut, isDot] at whole
    refine ⟨?_, by simp, ?_⟩
    · have turned := congrArg List.reverse whole
      rw [List.reverse_append, List.reverse_reverse] at turned
      exact turned.symm.trans (by simp)
    · intro inside
      have := List.mem_takeWhile_imp (List.mem_reverse.mp inside)
      simp at this
  · exact nomatch congrArg Prod.snd h

theorem stemAndExtension_none {name : List Char} (h : (stemAndExtension name).2 = none) :
    stemAndExtension name = (name, none) := by
  simp only [stemAndExtension] at h ⊢
  split at h
  · exact nomatch h
  · rfl

theorem stemAndExtension_dot {name extension : List Char} (named : name ≠ [])
    (dotless : '.' ∉ extension) :
    stemAndExtension (name ++ '.' :: extension) = (name, some extension) := by
  obtain ⟨kept, cut⟩ := @cut_last '.' (name ++ ['.']) extension (by simp) dotless
  obtain ⟨c, rest, rev⟩ := List.exists_cons_of_ne_nil (mt List.reverse_eq_nil_iff.mp named)
  have turned : (name ++ ['.']).reverse = '.' :: c :: rest := by
    rw [List.reverse_append, rev]
    rfl
  rw [turned, ← List.append_cons] at cut
  rw [← List.append_cons] at kept
  simp only [stemAndExtension, kept, cut, List.reverse_reverse]
  rw [← rev, List.reverse_reverse]

/-- The path ends in a name that has no extension. -/
def Bare (path : String) : Prop :=
  ∃ s, split? path = some s ∧ s.trailing = false ∧ (stemAndExtension s.name).2 = none

def extended (path extension : String) : String := path ++ "." ++ extension

theorem toList_extended (path extension : String) :
    (extended path extension).toList = path.toList ++ '.' :: extension.toList := by
  simp [extended]

theorem extended_inj {p q e e' : String} (dotless : '.' ∉ e.toList) (dotless' : '.' ∉ e'.toList)
    (h : extended p e = extended q e') : p = q ∧ e = e' := by
  have texts := congrArg String.toList h
  rw [toList_extended, toList_extended, List.append_cons, List.append_cons q.toList] at texts
  have reversed := (@cut_last '.' (p.toList ++ ['.']) e.toList (by simp) dotless).1
  rw [texts, (cut_last (by simp) dotless').1, List.reverse_inj] at reversed
  rw [reversed] at texts
  exact ⟨String.toList_inj.mp (List.append_cancel_right (List.append_cancel_right texts)),
    String.toList_inj.mp reversed.symm⟩

theorem Bare.parts {path : String} (h : Bare path) : ∃ directory name, Opens directory ∧
    Names name ∧ stemAndExtension name = (name, none) ∧ path.toList = directory ++ name ∧
    split? path = some ⟨directory, name, false⟩ := by
  obtain ⟨⟨directory, name, trailing⟩, cut, rfl, plain⟩ := h
  obtain ⟨opens, named, tail, whole, ended⟩ := split?_parts cut
  rw [ended.mp rfl, List.append_nil] at whole
  exact ⟨directory, name, opens, named, stemAndExtension_none plain, whole, cut⟩

def suffix (extension : String) : List Char :=
  if extension.isEmpty then [] else '.' :: extension.toList

theorem suffix_some {extension : String} (some : extension ≠ "") :
    suffix extension = '.' :: extension.toList :=
  if_neg (by simpa using some)

theorem withExtension_stem {path : String} {s : Split} {stem : List Char}
    {ext : Option (List Char)} (cut : split? path = some s)
    (pieces : stemAndExtension s.name = (stem, ext)) (usual : stem = ['.'] → ext = none)
    (extension : String) :
    (withExtension path extension).toList = s.directory ++ stem ++ suffix extension := by
  simp only [withExtension, cut, pieces]
  split
  · rename_i dotted
    obtain ⟨rfl, rfl⟩ := Prod.mk.inj dotted
    exact nomatch usual rfl
  · rename_i whole
    obtain ⟨rfl, -⟩ := Prod.mk.inj whole
    exact String.toList_ofList

theorem withExtension_dots {path : String} {s : Split} {ext : List Char}
    (cut : split? path = some s) (pieces : stemAndExtension s.name = (['.'], some ext))
    (extension : String) : (withExtension path extension).toList =
      s.directory ++ '.' :: if s.trailing then suffix extension else ['.'] := by
  simp only [withExtension, cut, pieces]
  split <;> exact String.toList_ofList

/-- An extension is appended exactly where there is none to be replaced. -/
theorem withExtension_appends {path extension : String} (some : extension ≠ "") :
    withExtension path extension = extended path extension ↔ Bare path := by
  have behind := suffix_some some
  constructor
  · intro same
    have texts := congrArg String.toList same
    cases cut : split? path with
    | none =>
      rw [toList_extended, withExtension, cut] at texts
      simp at texts
    | some s =>
      obtain ⟨-, named, tail, whole, ended⟩ := split?_parts cut
      rw [toList_extended, whole] at texts
      rcases pieces : stemAndExtension s.name with ⟨stem, _ | x⟩
      · have plain := congrArg Prod.snd pieces
        have alone : s.name = stem :=
          congrArg Prod.fst ((stemAndExtension_none plain).symm.trans pieces)
        rw [withExtension_stem cut pieces (fun _ => rfl), behind, ← alone] at texts
        have lengths := congrArg List.length texts
        simp only [List.length_append] at lengths
        exact ⟨s, cut, ended.mpr (List.length_eq_zero_iff.mp (by omega)), plain⟩
      · obtain ⟨name, -, -⟩ := stemAndExtension_some pieces
        by_cases dot : stem = ['.']
        · rw [dot] at pieces name
          rw [withExtension_dots cut pieces, name] at texts
          have lengths := congrArg List.length texts
          cases trailing : s.trailing <;> simp [behind, trailing] at lengths
          omega
        · rw [withExtension_stem cut pieces (absurd · dot), behind, name] at texts
          have lengths := congrArg List.length texts
          simp at lengths
          omega
  · intro bare
    obtain ⟨directory, name, -, -, plain, whole, cut⟩ := bare.parts
    refine String.toList_inj.mp ?_
    rw [withExtension_stem cut plain (fun _ => rfl), behind, toList_extended, whole]

theorem bare_iff {path : String} {directory name : List Char} (opens : Opens directory)
    (flat : '/' ∉ name) (text : path.toList = directory ++ name) :
    Bare path ↔ Names name ∧ (stemAndExtension name).2 = none := by
  constructor
  · intro bare
    obtain ⟨above, last, opens', named, plain, whole, -⟩ := bare.parts
    have same : last.reverse = name.reverse := by
      rw [← (cut_last opens' named.2.1).1, ← (cut_last opens flat).1, ← whole, ← text]
    rw [← List.reverse_inj.mp same]
    exact ⟨named, congrArg Prod.snd plain⟩
  · rintro ⟨named, plain⟩
    have cut := split?_name named opens
    rw [← text, String.ofList_toList] at cut
    exact ⟨_, cut, rfl, plain⟩

theorem Bare.extended_not_bare {path extension : String} (bare : Bare path)
    (flat : '/' ∉ extension.toList) (dotless : '.' ∉ extension.toList) :
    ¬ Bare (extended path extension) := by
  obtain ⟨directory, name, opens, named, -, whole, -⟩ := bare.parts
  have text : (extended path extension).toList =
      directory ++ (name ++ '.' :: extension.toList) := by
    rw [toList_extended, whole, List.append_assoc]
  have noSlash : '/' ∉ name ++ '.' :: extension.toList := by simp [named.2.1, flat]
  rw [bare_iff opens noSlash text, stemAndExtension_dot named.1 dotless]
  exact fun h => nomatch h.2

/-- The name that a path ends in has one extension at most. -/
def DotsOnce (path : String) : Prop :=
  ∃ s, split? path = some s ∧ (stemAndExtension s.name).1 ≠ ['.'] ∧
    (stemAndExtension (stemAndExtension s.name).1).2 = none

/-- Without its extension a path is bare exactly if its name had no second one. -/
theorem bare_withExtension_iff (path : String) : Bare (withExtension path "") ↔ DotsOnce path := by
  cases cut : split? path with
  | none =>
    have same : withExtension path "" = path := by rw [withExtension, cut]
    rw [same]
    constructor <;> rintro ⟨s, found, -⟩ <;> exact nomatch cut.symm.trans found
  | some s =>
    obtain ⟨opens, named, -⟩ := split?_parts cut
    rcases pieces : stemAndExtension s.name with ⟨stem, ext⟩
    have once : DotsOnce path ↔ stem ≠ ['.'] ∧ (stemAndExtension stem).2 = none := by
      simp only [DotsOnce, cut, Option.some.injEq, exists_eq_left', pieces]
    rw [once]
    by_cases dots : stem = ['.'] ∧ ext.isSome
    · obtain ⟨rfl, isSome⟩ := dots
      obtain ⟨x, rfl⟩ := Option.isSome_iff_exists.mp isSome
      rw [bare_iff opens _ (withExtension_dots cut pieces "")]
      · cases s.trailing <;> simp [Names, suffix]
      · cases s.trailing <;> decide
    · have usual (dot : stem = ['.']) : ext = none := by
        cases ext with
        | none => rfl
        | some x => exact absurd ⟨dot, rfl⟩ dots
      have stemNamed : stem ≠ [] ∧ '/' ∉ stem := by
        cases ext with
        | none =>
          have alone : s.name = stem :=
            congrArg Prod.fst ((stemAndExtension_none (congrArg Prod.snd pieces)).symm.trans pieces)
          rw [← alone]
          exact ⟨named.1, named.2.1⟩
        | some x =>
          obtain ⟨whole, some, -⟩ := stemAndExtension_some pieces
          exact ⟨some, fun slash => named.2.1 (whole ▸ List.mem_append_left _ slash)⟩
      have text := withExtension_stem cut pieces usual ""
      rw [show suffix "" = [] from rfl, List.append_nil] at text
      rw [bare_iff opens stemNamed.2 text]
      constructor
      · rintro ⟨⟨-, -, noDot, -⟩, plain⟩
        exact ⟨noDot, plain⟩
      · rintro ⟨noDot, plain⟩
        refine ⟨⟨stemNamed.1, stemNamed.2, noDot, ?_⟩, plain⟩
        rintro rfl
        exact nomatch plain

end Path

namespace BuildPlan

/-- The artifacts of a run in which nothing fails, in the order they are made. -/
def artifacts (f : BuildPlan) : List String := f.source :: f.steps.map Prod.snd

variable {m : Type → Type} [Monad m]

section Answers

variable [LawfulMonad m]

theorem answers_bind {α β : Type} {x : ExceptT Failure m α} {a : α}
    (answers : x = (fun _ => a) <$> x) (k : α → ExceptT Failure m β) :
    x >>= k = x >>= fun _ => k a :=
  calc x >>= k = ((fun _ => a) <$> x) >>= k := by rw [← answers]
    _ = x >>= fun _ => k a := bind_map_left ..

theorem runSteps_answers (h : Host m) (steps : List (Command × String)) :
    runSteps h steps = (fun _ => steps.map Prod.snd) <$> runSteps h steps := by
  induction steps with
  | nil => simp [runSteps]
  | cons step rest ih =>
    obtain ⟨command, product⟩ := step
    simp only [runSteps, map_bind, map_pure, List.map_cons]
    exact congrArg _ (funext fun _ => answers_bind ih _)

theorem run_answers (h : Host m) (f : BuildPlan) (text : String) :
    f.run h text = (fun _ => f.artifacts) <$> f.run h text := by
  simp only [run, map_bind]
  refine congrArg _ (funext fun written => ?_)
  cases written with
  | error e => exact ExceptT.ext (by simp)
  | ok _ =>
    simp only [map_bind, map_pure]
    exact answers_bind (runSteps_answers h f.steps) _

end Answers

theorem runSteps_only {h h' : Host m} {steps : List (Command × String)}
    (tools : ∀ step ∈ steps, h.spawn step.1.tool step.1.args = h'.spawn step.1.tool step.1.args) :
    runSteps h steps = runSteps h' steps := by
  induction steps with
  | nil => rfl
  | cons step rest ih =>
    obtain ⟨command, product⟩ := step
    obtain ⟨first, others⟩ := List.forall_mem_cons.mp tools
    simp only [runSteps, Command.run, first, ih others]

/-- A run writes its text to one path and calls the tools of its plan; it asks nothing else of the
system. -/
theorem run_only {h h' : Host m} {f : BuildPlan} {text : String}
    (write : h.writeFile f.source text = h'.writeFile f.source text)
    (tools : ∀ step ∈ f.steps, h.spawn step.1.tool step.1.args = h'.spawn step.1.tool step.1.args) :
    f.run h text = f.run h' text := by
  simp only [run, write, runSteps_only tools]

theorem steps_told {f : BuildPlan} {step : Command × String} (h : step ∈ f.steps) :
    ["-o", step.2] <:+: step.1.args := by
  have assembled (tool source object : String) :
      ["-o", object] <:+: (Command.assembler tool source object).args := ⟨[source], [], rfl⟩
  have linked (tool object runtime executable : String) :
      ["-o", executable] <:+: (Command.linker tool object runtime executable).args :=
    ⟨[object, runtime], [], rfl⟩
  have generated (tool : String) (target : TargetMachine) (source object : String) :
      ["-o", object] <:+: (Command.codeGenerator tool target source object).args :=
    ⟨_, [source], List.append_assoc ..⟩
  simp only [steps] at h
  split at h
  · exact nomatch h
  · split at h
    · split at h
      · obtain rfl := List.mem_singleton.mp h
        exact assembled ..
      · exact nomatch h
    · obtain rfl | more := List.mem_cons.mp h
      · exact generated ..
      · split at more
        · obtain rfl := List.mem_singleton.mp more
          exact linked ..
        · exact nomatch more

theorem artifacts_order (f : BuildPlan) :
    f.artifacts <+: [f.source, f.object, f.outputBase] := by
  simp only [artifacts, steps]
  split
  · exact ⟨_, rfl⟩
  · split
    · split
      · exact ⟨_, rfl⟩
      · exact ⟨_, rfl⟩
    · split
      · exact ⟨_, rfl⟩
      · exact ⟨_, rfl⟩

/-- What a run of a plan does: it answers the artifacts if nothing fails, asks the system for
nothing but to write the source and to run the tools, and tells each tool where its product
goes. -/
structure Makes (f : BuildPlan) (paths : List String) : Prop where
  answers {m : Type → Type} [Monad m] [LawfulMonad m] (h : Host m) (text : String) :
    f.run h text = (fun _ => paths) <$> f.run h text
  only {m : Type → Type} [Monad m] {h h' : Host m} {text : String} :
    h.writeFile f.source text = h'.writeFile f.source text →
    (∀ step ∈ f.steps, h.spawn step.1.tool step.1.args = h'.spawn step.1.tool step.1.args) →
    f.run h text = f.run h' text
  told : ∀ step ∈ f.steps, ["-o", step.2] <:+: step.1.args

theorem makes (f : BuildPlan) : f.Makes f.artifacts where
  answers h text := run_answers h f text
  only := run_only
  told _ := steps_told

end BuildPlan

namespace CommandLine.Options

open ClassBackend.Path

def given (o : Options) : String := o.output.getD o.file

theorem plan_base {o : Options} {detected : Option String} {backend : BackendKind} {f : BuildPlan}
    (made : o.plan detected backend = .ok f) :
    f.backend = backend ∧ f.outputBase = withExtension o.given "" := by
  unfold plan at made
  cases target : TargetMachine.resolve detected o.targetCpu o.targetFeatures with
  | error e =>
    rw [target] at made
    exact nomatch made
  | ok machine =>
    rw [target] at made
    obtain rfl := Except.ok.inj made
    exact ⟨rfl, rfl⟩

theorem extension_plain (backend : BackendKind) : backend.extension ≠ "" ∧
    '/' ∉ backend.extension.toList ∧ '.' ∉ backend.extension.toList ∧ backend.extension ≠ "o" := by
  cases backend <;> decide +kernel

theorem object_plain : "o" ≠ "" ∧ '/' ∉ "o".toList ∧ '.' ∉ "o".toList := by
  decide +kernel

theorem mem_artifacts {f : BuildPlan} (bare : Bare f.outputBase) {path : String}
    (h : path ∈ f.artifacts) :
    path = f.outputBase ∨
      ∃ e, '/' ∉ e.toList ∧ '.' ∉ e.toList ∧ path = extended f.outputBase e := by
  obtain ⟨some, flat, dotless, -⟩ := extension_plain f.backend
  have all := f.artifacts_order.subset h
  simp only [List.mem_cons, List.not_mem_nil, or_false] at all
  obtain rfl | rfl | rfl := all
  · exact .inr ⟨_, flat, dotless, (withExtension_appends some).mpr bare⟩
  · exact .inr ⟨_, object_plain.2.1, object_plain.2.2,
      (withExtension_appends object_plain.1).mpr bare⟩
  · exact .inl rfl

theorem artifacts_disjoint {f g : BuildPlan} (bare : Bare f.outputBase)
    (bare' : Bare g.outputBase) (apart : f.outputBase ≠ g.outputBase) {path : String}
    (h : path ∈ f.artifacts) (h' : path ∈ g.artifacts) : False := by
  obtain rfl | ⟨e, flat, dotless, rfl⟩ := mem_artifacts bare h
  · obtain same | ⟨e', flat', dotless', same⟩ := mem_artifacts bare' h'
    · exact apart same
    · exact bare'.extended_not_bare flat' dotless' (same ▸ bare)
  · obtain same | ⟨e', flat', dotless', same⟩ := mem_artifacts bare' h'
    · exact bare.extended_not_bare flat dotless (same ▸ bare')
    · exact apart (extended_inj dotless dotless' same).1

/-- A plan makes the source, the object file and the executable, as far as it has tools for them.
Where the given path ends in a name with one extension at most, and only there, they are called
after the base with an extension appended; there the three paths are distinct, and shared with no
plan for another such base. -/
theorem plan_artifacts {o : Options} {detected : Option String} {backend : BackendKind}
    {f : BuildPlan} (made : o.plan detected backend = .ok f) :
    f.Makes f.artifacts ∧ f.artifacts <+: [f.source, f.object, o.outputBase] ∧
      (f.source = extended o.outputBase backend.extension ↔ DotsOnce o.given) ∧
      (f.object = extended o.outputBase "o" ↔ DotsOnce o.given) ∧
      (DotsOnce o.given → [f.source, f.object, o.outputBase].Nodup ∧
        ∀ o' detected' backend' g, plan o' detected' backend' = .ok g → DotsOnce o'.given →
          o.outputBase ≠ o'.outputBase → ∀ path ∈ f.artifacts, path ∉ g.artifacts) := by
  obtain ⟨rfl, base⟩ := plan_base made
  have bare : Bare o.outputBase ↔ DotsOnce o.given := bare_withExtension_iff o.given
  have base : f.outputBase = o.outputBase := base
  obtain ⟨some, flat, dotless, notObject⟩ := extension_plain f.backend
  rw [← bare, ← base]
  refine ⟨f.makes, f.artifacts_order, withExtension_appends some,
    withExtension_appends object_plain.1, fun bare => ⟨?_, ?_⟩⟩
  · have source := (withExtension_appends some).mpr bare
    have object := (withExtension_appends object_plain.1).mpr bare
    have appended (e : String) (flat : '/' ∉ e.toList) (dotless : '.' ∉ e.toList) :
        extended f.outputBase e ≠ f.outputBase :=
      fun same => bare.extended_not_bare flat dotless (same.symm ▸ bare)
    simp only [List.nodup_cons, List.mem_cons, List.not_mem_nil, or_false, not_or, List.nodup_nil,
      not_false_eq_true, and_true]
    refine ⟨⟨fun same => ?_, ?_⟩, ?_⟩
    · have sameText := source.symm.trans (same.trans object)
      exact notObject (extended_inj dotless object_plain.2.2 sameText).2
    · exact fun same => appended _ flat dotless (source.symm.trans same)
    · exact fun same =>
        appended _ object_plain.2.1 object_plain.2.2 (object.symm.trans same)
  · intro o' detected' backend' g made' once apart path h h'
    have base' : g.outputBase = o'.outputBase := (plan_base made').2
    have bare' : Bare g.outputBase := base' ▸ (bare_withExtension_iff o'.given).mpr once
    exact artifacts_disjoint bare bare' (base' ▸ apart) h h'

def onFile (file : String) : Options := ofArguments file {} fun _ => none

theorem hello_artifacts : ∃ f g, (onFile "out/hello.json").plan none .llvm = .ok f ∧
    (onFile "out/.other").plan none .mips = .ok g ∧ f.source = "out/hello.ll" ∧
    [f.source, f.object, f.outputBase].Nodup ∧ ∀ path ∈ f.artifacts, path ∉ g.artifacts := by
  refine ⟨_, _, rfl, rfl, by decide +kernel, ?_⟩
  have once : DotsOnce "out/hello.json" := ⟨_, rfl, by decide +kernel, by decide +kernel⟩
  have once' : DotsOnce "out/.other" := ⟨_, rfl, by decide +kernel, by decide +kernel⟩
  obtain ⟨-, -, -, -, apart⟩ := plan_artifacts (o := onFile "out/hello.json") rfl
  obtain ⟨distinct, disjoint⟩ := apart once
  exact ⟨distinct, disjoint (onFile "out/.other") none .mips _ rfl once' (by decide +kernel)⟩

/-- Two programs whose names differ in front of the second extension overwrite each other's text,
and an executable that is to be called after an object file is that file. -/
theorem secondDot_collides : ∃ f g h, (onFile "a.b.json").plan none .mips = .ok f ∧
    (onFile "a.c.json").plan none .mips = .ok g ∧
    plan { onFile "a.json" with output := some "a.o.out" } none .llvm = .ok h ∧
    f.outputBase = "a.b" ∧ g.outputBase = "a.c" ∧ f.source = "a.s" ∧ g.source = "a.s" ∧
    h.object = "a.o" ∧ h.outputBase = "a.o" := by
  refine ⟨_, _, _, rfl, rfl, rfl, ?_⟩
  decide +kernel

end CommandLine.Options

end ClassBackend
