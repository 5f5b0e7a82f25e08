import ClassBackend.Proofs.Llvm.Cases

/-! Calls of methods in LLVM IR. Where the receiver is not void, the machine gets past the check,
and leaves the lines for the method with the receiver and the arguments. -/
namespace ClassBackend.Llvm

open Machine Lowering Transcript

/-- The code that fetches a method from the table of an object, from the temporary number `n` on. -/
def fetchCode (n : Nat) (v : Operand) (slot : Nat) : List Instr := [
  .assign ⟨n⟩ (.element Builtin.objectName v 2),
  .assign ⟨n + 1⟩ (.load .ptr (.temp ⟨n⟩)),
  .assign ⟨n + 2⟩ (.entry (.temp ⟨n + 1⟩) slot),
  .assign ⟨n + 3⟩ (.load .ptr (.temp ⟨n + 2⟩))]

def callCode (t : Temp) (method : Operand) (args : List Operand) : Instr :=
  .assign t (.call .ptr method (Gen.objects args))

def dynamicLines (n : Nat) (v : Operand) (slot : Nat) (saved : List Operand) : List CodeLine :=
  (fetchCode n v slot ++ [callCode ⟨n + 4⟩ (.temp ⟨n + 3⟩) (v :: saved)]).map .instr

def directLines (n : Nat) (v : Operand) (label : String) (saved : List Operand) : List CodeLine :=
  ([] ++ [callCode ⟨n⟩ (.symbol label) (v :: saved)]).map .instr

/-- The operand points at an object with the dispatch table of the class. -/
def Points (u : Site) (c : Config) (obj : Operand) (d : ClassLayout) : Prop :=
  c.memory (u.eval c.temps obj + BitVec.ofNat 64 (slotSize * 2)) =
    some (u.symbol (Linkage.dispatchTable d.name))

/-- The next that the machine does outside of these lines is to call the method of that label with
these operands. -/
def Site.CallsOn (u : Site) (before is : List CodeLine) (c : Config) (args : List Operand)
    (label : String) : Prop :=
  ∃ k, u.engine.Leaves (Config.Among before is) c k ∧ k.target = u.symbol label ∧
    k.args = args.map (u.eval c.temps) ∧ k.memory = c.memory

section Code

variable {s s' : State} {fs : List (List CodeLine)} {is : List CodeLine} {v r : Operand}
variable {saved : List Operand}

theorem callDynamic_puts {c : ClassLayout} {slot : Nat}
    (h : transcript.Puts (backend.callDynamic v c slot saved) s r is s') :
    is = dynamicLines s.fresh.next v slot saved := by
  obtain ⟨run, fs, before, there, there'⟩ := h
  obtain ⟨_, s₁, first, run⟩ := bind_ok.mp run
  obtain ⟨_, s₂, second, run⟩ := bind_ok.mp run
  obtain ⟨_, s₃, third, run⟩ := bind_ok.mp run
  obtain ⟨_, s₄, fourth, last⟩ := bind_ok.mp run
  obtain ⟨rfl, more₁, there₁⟩ := assign_line there first
  obtain ⟨rfl, more₂, there₂⟩ := assign_line there₁ second
  obtain ⟨rfl, more₃, there₃⟩ := assign_line there₂ third
  obtain ⟨rfl, more₄, there₄⟩ := assign_line there₃ fourth
  obtain ⟨rfl, _, there₅⟩ := assign_line there₄ last
  rw [more₁] at more₂ there₂ there₃ there₄ there₅
  rw [more₂] at more₃ there₃ there₄ there₅
  rw [more₃] at more₄ there₄ there₅
  rw [more₄] at there₅
  simp only [List.append_assoc] at there₅
  exact List.append_cancel_left (transcript_legible there' there₅)

theorem callDirect_puts {label : String}
    (h : transcript.Puts (backend.callDirect label v saved) s r is s') :
    is = directLines s.fresh.next v label saved := by
  obtain ⟨run, fs, before, there, there'⟩ := h
  obtain ⟨rfl, _, there₁⟩ := assign_line there run
  exact List.append_cancel_left (transcript_legible there' there₁)

variable {cx : Context} {p : Pool} {vars : Resolved.Vars backend} {σ σ' : Session backend}
variable {recv : Expr} {static : Option String} {method : String} {args : List Expr} {file : Const}
variable {as es gs : List CodeLine}

theorem arguments_below (h : transcript.ArgumentCode cx vars σ args saved is σ') :
    σ.target.fresh.next ≤ σ'.target.fresh.next ∧ ∀ x ∈ saved, x.Below σ'.target.fresh.next := by
  induction h with
  | nil => exact ⟨Nat.le_refl _, by simp⟩
  | cons lowered keeps _ ih =>
    obtain ⟨more, below⟩ := lowered_below lowered.1
    obtain ⟨rfl, rfl⟩ := pure_ok.mp keeps.1
    refine ⟨Nat.le_trans more ih.1, fun x hx => ?_⟩
    rcases List.mem_cons.mp hx with rfl | hx
    · exact below.mono ih.1
    · exact ih.2 x hx

theorem entry_guard {t : State}
    (h : transcript.EntryCode cx p recv args file v saved as es gs t) :
    ∃ n q onVoid onward, (∀ x ∈ v :: saved, x.Below n) ∧ n ≤ q.id ∧ n ≤ t.fresh.next ∧
      gs = guardLines .dispatchOnVoid v file recv.line q onVoid onward := by
  obtain ⟨arguments, lowered, _, way⟩ := h
  obtain ⟨_, kept⟩ := arguments_below arguments
  obtain ⟨more, below⟩ := lowered_below lowered.1
  obtain ⟨q, onVoid, onward, late, lines⟩ := guard_puts way
  refine ⟨_, q, onVoid, onward, fun x hx => ?_, late, guard_fresh way.1, lines⟩
  rcases List.mem_cons.mp hx with rfl | hx
  · exact below
  · exact (kept x hx).mono more

end Code

section Runs

variable {u : Site} {f : Function} {c c' : Config} {before after lines : List CodeLine}
variable {is : List Instr} {v : Operand} {label : String} {n : Nat} {args : List Operand}

theorem passes_exec {within : Config → Prop} (code : u.Has c.label c.index is)
    (run : u.exec is c = some c') (here : c.Behind before)
    (inside : ∀ d front, front <+: is → d.Behind (before ++ front.map .instr) → within d) :
    u.engine.Passes within c c' ∧ c'.Behind (before ++ is.map .instr) := by
  induction is generalizing c before with
  | nil =>
    cases run
    rw [List.map_nil, List.append_nil]
    exact ⟨.here (inside c' [] List.prefix_rfl (by rwa [List.map_nil, List.append_nil])), here⟩
  | cons i is ih =>
    obtain ⟨t, rhs, x, rfl, performs, rest⟩ := u.exec_cons run
    have first : within c :=
      inside c [] List.nil_prefix (by rwa [List.map_nil, List.append_nil])
    have next : (c.assign t x).Behind (before ++ [.instr (.assign t rhs)]) := here.snoc rfl rfl
    obtain ⟨path, there⟩ := ih (c := c.assign t x) code.tail rest next
      fun d front starts behind => inside d (.assign t rhs :: front)
        (List.cons_prefix_cons.mpr ⟨rfl, starts⟩) (by rwa [List.append_assoc] at behind)
    refine ⟨.step first (.moves ((Site.Has.step code).trans performs)) path, ?_⟩
    rwa [List.append_assoc] at there

/-- The row that fetches a method from the table of an object. -/
theorem exec_fetch {globals : List Global} {table : String} {slot : Nat}
    (loaded : Loaded u.symbol globals c.memory)
    (object : c.memory (u.eval c.temps v + BitVec.ofNat 64 (slotSize * 2)) =
      some (u.symbol table))
    (entry : (pointersAt table globals)[slot]? = some label) :
    ∃ c', u.exec (fetchCode n v slot) c = some c' ∧
      u.eval c'.temps (.temp ⟨n + 3⟩) = u.symbol label := by
  let c₁ := c.assign ⟨n⟩ (u.eval c.temps v + BitVec.ofNat 64 (slotSize * 2))
  let c₂ := c₁.assign ⟨n + 1⟩ (u.symbol table)
  let c₃ := c₂.assign ⟨n + 2⟩ (u.symbol table + BitVec.ofNat 64 (slotSize * slot))
  let c₄ := c₃.assign ⟨n + 3⟩ (u.symbol label)
  have first : u.value c (.element Builtin.objectName v 2) =
      some (u.eval c.temps v + BitVec.ofNat 64 (slotSize * 2)) := rfl
  have second : u.value c₁ (.load .ptr (.temp ⟨n⟩)) = some (u.symbol table) := by
    rw [Site.value, eval_assign]
    exact object
  have third : u.value c₂ (.entry (.temp ⟨n + 1⟩) slot) =
      some (u.symbol table + BitVec.ofNat 64 (slotSize * slot)) := by
    rw [Site.value, eval_assign]
  have fourth : u.value c₃ (.load .ptr (.temp ⟨n + 2⟩)) = some (u.symbol label) := by
    rw [Site.value, eval_assign]
    exact loaded table slot label entry
  refine ⟨c₄, ?_, eval_assign ..⟩
  rw [fetchCode, exec_assign first, exec_assign second, exec_assign third, exec_assign fourth]
  rfl

theorem row_calls {mid : List CodeLine} {t : Temp} {method : Operand}
    (distinct : (blockLabels f.listing).Nodup) (same : u.body = f.body)
    (parts : f.listing = before ++ (mid ++ (is ++ [callCode t method args]).map .instr) ++ after)
    (here : c.Behind (before ++ mid)) (run : u.exec is c = some c')
    (callee : u.eval c'.temps method = u.symbol label)
    (older : ∀ x ∈ args, u.eval c'.temps x = u.eval c.temps x) :
    u.CallsOn before (mid ++ (is ++ [callCode t method args]).map .instr) c args label := by
  have lines : f.listing =
      (before ++ mid) ++ ((is ++ [callCode t method args]).map .instr ++ after) := by
    rw [parts]
    simp only [List.append_assoc]
  have code : u.Has c.label c.index (is ++ [callCode t method args]) :=
    has_of_behind distinct same lines here
  have within {d : Config} {front : List Instr} (starts : front <+: is)
      (behind : d.Behind (before ++ mid ++ front.map .instr)) :
      d.Among before (mid ++ (is ++ [callCode t method args]).map .instr) := by
    obtain ⟨rest, rfl⟩ := starts
    refine ⟨mid ++ front.map .instr, (rest ++ [callCode t method args]).map .instr, ?_, by simp, ?_⟩
    · simp only [List.map_append, List.append_assoc]
    · rwa [← List.append_assoc]
  obtain ⟨path, there⟩ := passes_exec code.take run here fun _ _ => within
  obtain ⟨block, index, _, memory, _⟩ := u.exec_frame run
  have last : u.Has c'.label c'.index [callCode t method args] := by
    rw [block, index]
    exact code.drop
  have leaves : u.engine.Leaves
      (Config.Among before (mid ++ (is ++ [callCode t method args]).map .instr)) c'
      (u.callee c' method (Gen.objects args)) :=
    ⟨c', _, .here (within List.prefix_rfl there), Site.Has.step last⟩
  refine ⟨_, path.leaves leaves, callee, ?_, memory⟩
  rw [Site.callee, Gen.objects, List.map_map]
  exact List.map_congr_left older

theorem dynamic_calls {mid : List CodeLine} {globals : List Global} {d : ClassLayout} {slot : Nat}
    {saved : List Operand} (distinct : (blockLabels f.listing).Nodup) (same : u.body = f.body)
    (parts : f.listing = before ++ (mid ++ dynamicLines n v slot saved) ++ after)
    (here : c.Behind (before ++ mid)) (below : ∀ x ∈ v :: saved, x.Below n)
    (loaded : Loaded u.symbol globals c.memory) (object : Points u c v d)
    (entry : (pointersAt (Linkage.dispatchTable d.name) globals)[slot]? = some label) :
    u.CallsOn before (mid ++ dynamicLines n v slot saved) c (v :: saved) label := by
  obtain ⟨c', run, callee⟩ := exec_fetch loaded object entry
  obtain ⟨_, _, _, _, temps⟩ := u.exec_frame run
  refine row_calls distinct same parts here run callee fun x hx => ?_
  refine eval_below (below x hx) fun q early => temps q fun rhs mem => ?_
  simp only [fetchCode, List.mem_cons, Instr.assign.injEq, List.not_mem_nil, or_false] at mem
  rcases mem with ⟨rfl, _⟩ | ⟨rfl, _⟩ | ⟨rfl, _⟩ | ⟨rfl, _⟩ <;> simp only at early <;> omega

/-- Where the operand is not void, the machine gets to where the code goes on. -/
theorem guard_passes {kind : AbortKind} {file : Const} {line : UInt64} {t : Temp}
    {onVoid onward : BlockName} {rest : List CodeLine} (distinct : (blockLabels f.listing).Nodup)
    (same : u.body = f.body)
    (parts : f.listing =
      before ++ (guardLines kind v file line t onVoid onward ++ rest) ++ after)
    (here : c.Behind before) (object : u.eval c.temps v ≠ 0) (more : rest ≠ []) :
    ∃ d, u.engine.Passes
        (Config.Among before (guardLines kind v file line t onVoid onward ++ rest)) c d ∧
      d.Behind (before ++ guardLines kind v file line t onVoid onward) ∧ d.memory = c.memory ∧
      ∀ q, q ≠ t → d.temps q = c.temps q := by
  let test : Instr := .assign t (.compare .eq .ptr v .null)
  let turn : Instr := .condBr (.temp t) (.block onVoid) (.block onward)
  have code : u.Has c.label c.index [test, turn] := has_of_behind distinct same
    (by rw [parts, List.append_assoc, List.append_assoc]; rfl) here
  let c₁ := c.assign t 0
  let c₂ := c₁.enter (.block onward)
  have compares : u.step c = .moves c₁ := by
    have differs :
        Meaning.holds .eq (u.eval c.temps v).toInt (u.eval c.temps .null).toInt = false :=
      decide_eq_false fun equal => object (BitVec.eq_of_toInt_eq equal)
    rw [Site.Has.step code]
    simp only [test, Site.perform, Site.define, Site.value, differs]
    rfl
  have turns : u.step c₁ = .branches false c₂ := by
    have known : u.eval c₁.temps (.temp t) = 0 := Function.update_self ..
    have next : u.Has c₁.label c₁.index [turn] := code.tail
    rw [Site.Has.step next]
    simp only [turn, Site.perform, known]
    rfl
  have among {d : Config} (front back : List CodeLine)
      (parts : guardLines kind v file line t onVoid onward = front ++ back)
      (there : d.Behind (before ++ front)) :
      d.Among before (guardLines kind v file line t onVoid onward ++ rest) :=
    ⟨front, back ++ rest, by rw [parts, List.append_assoc],
      List.append_ne_nil_of_right_ne_nil _ more, there⟩
  have start : c.Behind (before ++ []) := by rwa [List.append_nil]
  have first : c₁.Behind (before ++ [.instr test]) := here.snoc rfl rfl
  have second : c₂.Behind (before ++ guardLines kind v file line t onVoid onward) :=
    ⟨before ++ ([.instr test, .instr turn, .block (.block onVoid)] ++ abortLines kind file line),
      [], by rw [guardLines, ← List.append_assoc]; rfl, rfl⟩
  refine ⟨c₂, ?_, second, rfl, fun q other => Function.update_of_ne other ..⟩
  exact .step (among [] _ rfl start) (.moves compares) <|
    .step (among [_] _ rfl first) (.branches turns) <|
    .here (among _ [] (List.append_nil _).symm second)

theorem guarded_calls {kind : AbortKind} {file : Const} {line : UInt64} {t : Temp}
    {onVoid onward : BlockName} {rest : List CodeLine} (distinct : (blockLabels f.listing).Nodup)
    (same : u.body = f.body)
    (parts : f.listing =
      before ++ (guardLines kind v file line t onVoid onward ++ rest) ++ after)
    (here : c.Behind before) (object : u.eval c.temps v ≠ 0) (more : rest ≠ [])
    (below : ∀ x ∈ args, x.Below t.id)
    (calls : ∀ d : Config, d.Behind (before ++ guardLines kind v file line t onVoid onward) →
      d.memory = c.memory → (∀ x ∈ args, u.eval d.temps x = u.eval c.temps x) →
      u.CallsOn before (guardLines kind v file line t onVoid onward ++ rest) d args label) :
    u.CallsOn before (guardLines kind v file line t onVoid onward ++ rest) c args label := by
  obtain ⟨d, path, there, memory, kept⟩ := guard_passes distinct same parts here object more
  have older (x : Operand) (hx : x ∈ args) : u.eval d.temps x = u.eval c.temps x :=
    eval_below (below x hx) fun q early => kept q (by rintro rfl; exact Nat.lt_irrefl _ early)
  obtain ⟨k, leaves, target, given, same⟩ := calls d there memory older
  exact ⟨k, path.leaves leaves, target, given.trans (List.map_congr_left older),
    same.trans memory⟩

end Runs

section Units

/-- The machine has the tables of the module in memory, and starts behind the code of the arguments
and of the receiver. -/
def calls (globals : List Global) : Transcript.Calls backend CodeLine where
  dynamic before is after v saved d label := ∀ (u : Site) (f : Function) (c : Config),
    u.body = f.body → f.listing = before ++ is ++ after → c.Behind before →
    Loaded u.symbol globals c.memory → u.eval c.temps v ≠ 0 → Points u c v d →
    u.CallsOn before is c (v :: saved) label
  direct before is after v saved label := ∀ (u : Site) (f : Function) (c : Config),
    u.body = f.body → f.listing = before ++ is ++ after → c.Behind before →
    u.eval c.temps v ≠ 0 → u.CallsOn before is c (v :: saved) label

theorem reaches {t : ClassTable} {globals : List Global} {f : Function}
    (distinct : (blockLabels f.listing).Nodup)
    (tables : ∀ d ∈ t.classes, ∀ (slot : Nat) m, d.methods[slot]? = some m →
      (pointersAt (Linkage.dispatchTable d.name) globals)[slot]? = some m.label) :
    (calls globals).Reaches transcript t f.listing where
  dynamic := by
    intro cx p recv args file v saved as es gs is before after t parts entry c slot r t' puts d m hd
      stands u g c same lines here loaded object points
    obtain ⟨n, q, onVoid, onward, below, late, older, rfl⟩ := entry_guard entry
    cases callDynamic_puts puts
    rw [parts, ← lines] at distinct
    refine guarded_calls distinct same lines here object (by simp [dynamicLines])
      (fun x hx => (below x hx).mono late) fun e there memory kept => ?_
    have still : Points u e v d := by
      rw [Points, memory, kept v (.head _)]
      exact points
    exact dynamic_calls distinct same lines there (fun x hx => (below x hx).mono older)
      (memory ▸ loaded) still (tables d hd slot m stands)
  direct := by
    intro cx p recv args file v saved as es gs is before after t parts entry label r t' puts u g c
      same lines here object
    obtain ⟨n, q, onVoid, onward, below, late, older, rfl⟩ := entry_guard entry
    cases callDirect_puts puts
    rw [parts, ← lines] at distinct
    refine guarded_calls distinct same lines here object (by simp [directLines])
      (fun x hx => (below x hx).mono late) fun e there _ _ => ?_
    have run : u.exec [] e = some e := rfl
    exact row_calls distinct same lines there run rfl fun _ _ => rfl

end Units

end ClassBackend.Llvm
