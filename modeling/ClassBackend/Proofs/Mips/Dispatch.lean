import ClassBackend.Proofs.Mips.Exits

/-! Calls of methods in MIPS code. Where the register with the receiver is not void, the machine
gets past the check, and leaves the stretch for the method with the receiver in `$a0` and the
arguments on the stack as they were. -/
namespace ClassBackend.Mips

open Machine Lowering

def dynamicCode (v : Reg) (slot : Nat) : List Instr :=
  intoAccCode v ++
    [.lw .t1 dispatchTableOffset .a0, .lw .t1 (4 * Word.low slot) .t1, .jalr .t1]

def directCode (v : Reg) (label : String) : List Instr := intoAccCode v ++ [.jal label]

/-- The register points at an object with the dispatch table of the class. -/
def Points (u : Site) (s : Cpu) (r : Reg) (d : ClassLayout) : Prop :=
  s.mem (s.get r + BitVec.ofInt 32 dispatchTableOffset) =
    some (u.symbol (Linkage.dispatchTable d.name))

/-- The next that the machine does outside of this stretch of the code is to call the method of that
label with the word of the register. No word in memory is different, and no register but two. -/
def Site.CallsOn (u : Site) (lo hi : Nat) (c : Config) (v : Reg) (label : String) : Prop :=
  ∃ k, u.engine.Leaves (Config.Between lo hi) c k ∧ k.target = u.symbol label ∧
    k.cpu.get .a0 = c.cpu.get v ∧ c.cpu.Agrees [.a0, .t1] k.cpu

section Code

variable {s s' : State} {is : List Instr} {v r : Reg} {saved : List Int}

theorem callDynamic_puts {c : ClassLayout} {slot : Nat}
    (h : transcript.Puts (backend.callDynamic v c slot saved) s r is s') :
    is = dynamicCode v slot := by
  obtain ⟨run, written⟩ := h
  obtain ⟨rfl, f, _, _, rfl⟩ := callDynamic_ok run
  exact written_eq written (State.add_code _ _)

theorem callDirect_puts {label : String}
    (h : transcript.Puts (backend.callDirect label v saved) s r is s') :
    is = directCode v label := by
  obtain ⟨run, written⟩ := h
  obtain ⟨rfl, f, _, _, rfl⟩ := callDirect_ok run
  exact written_eq written (State.add_code _ _)

end Code

section Runs

variable {u : Site} {n lo hi : Nat} {s s' : Cpu} {is : List Instr} {v : Reg} {label : String}

theorem exec_intoAcc (u : Site) (s : Cpu) (r : Reg) :
    ∃ s', u.exec (intoAccCode r) s = some s' ∧ s.Agrees [.a0, .t1] s' ∧ s'.get .a0 = s.get r := by
  unfold intoAccCode
  split
  · rename_i same
    exact ⟨s, rfl, .refl _ s, by rw [same]⟩
  · exact ⟨s.set .a0 (s.get r), rfl, (Cpu.Agrees.refl _ s).set (by simp) _,
      Cpu.get_set_self _ _ (by decide)⟩

theorem passes_intoAcc (code : u.Has n (intoAccCode v ++ is)) (first : lo ≤ n)
    (last : n + (intoAccCode v).length < hi) (s : Cpu) :
    ∃ s', u.engine.Passes (Config.Between lo hi) ⟨n, s⟩ ⟨n + (intoAccCode v).length, s'⟩ ∧
      s.Agrees [.a0, .t1] s' ∧ s'.get .a0 = s.get v := by
  obtain ⟨s', run, agree, acc⟩ := exec_intoAcc u s v
  refine ⟨s', passes_exec code.take run fun j _ le ge => ?_, agree, acc⟩
  exact ⟨Nat.le_trans first le, Nat.lt_of_le_of_lt ge last⟩

theorem direct_calls (code : u.Has n (directCode v label)) (first : lo ≤ n)
    (last : n + (directCode v label).length ≤ hi) (s : Cpu) :
    u.CallsOn lo hi ⟨n, s⟩ v label := by
  rw [directCode, List.length_append, List.length_singleton] at last
  have room : n + (intoAccCode v).length < hi := by omega
  obtain ⟨s', path, agree, acc⟩ := passes_intoAcc code first room s
  exact ⟨⟨u.symbol label, s'⟩, ⟨_, _, path, Site.Has.step code.drop s'⟩, rfl, acc, agree⟩

/-- The word that is called comes from the table of the receiver. -/
theorem dynamic_calls {data : List Line} {d : ClassLayout} {slot : Nat}
    (code : u.Has n (dynamicCode v slot)) (first : lo ≤ n)
    (last : n + (dynamicCode v slot).length ≤ hi) (loaded : Loaded u.symbol data s.mem)
    (object : Points u s v d)
    (entry : (Data.wordsAt (Linkage.dispatchTable d.name) data)[slot]? = some (.sym label)) :
    u.CallsOn lo hi ⟨n, s⟩ v label := by
  rw [dynamicCode, List.length_append] at last
  simp only [List.length_cons, List.length_nil] at last
  have room : n + (intoAccCode v).length < hi := by omega
  obtain ⟨s₁, path, agree, acc⟩ := passes_intoAcc code first room s
  let table := u.symbol (Linkage.dispatchTable d.name)
  let s₂ := s₁.set .t1 table
  let s₃ := s₂.set .t1 (u.symbol label)
  have tables : s₁.mem (s₁.get .a0 + BitVec.ofInt 32 dispatchTableOffset) = some table := by
    rw [agree.1, acc]
    exact object
  have methods : s₂.mem (s₂.get .t1 + BitVec.ofInt 32 (4 * Word.low slot)) =
      some (u.symbol label) := by
    rw [Cpu.get_set_self _ _ (by decide), ofInt_entry]
    exact (congrFun agree.1 _).trans (loaded _ slot _ entry)
  have loads : u.exec [.lw .t1 dispatchTableOffset .a0, .lw .t1 (4 * Word.low slot) .t1] s₁ =
      some s₃ := by
    have rest : u.exec [.lw .t1 (4 * Word.low slot) .t1] s₂ = some s₃ := exec_load methods
    simp only [Site.exec, Site.effect, tables, Option.map_some, Option.bind_some] at rest ⊢
    exact rest
  have fetch : u.Has (n + (intoAccCode v).length) ([.lw .t1 dispatchTableOffset .a0,
      .lw .t1 (4 * Word.low slot) .t1] ++ [.jalr .t1]) := code.drop
  have looked : u.engine.Passes (Config.Between lo hi) ⟨n + (intoAccCode v).length, s₁⟩
      ⟨n + (intoAccCode v).length + 2, s₃⟩ := passes_exec fetch.take loads fun j _ le ge =>
    ⟨show lo ≤ j by omega,
      Nat.lt_of_le_of_lt ge (show n + (intoAccCode v).length + 2 < hi by omega)⟩
  have jumps : u.step ⟨n + (intoAccCode v).length + 2, s₃⟩ =
      u.call ⟨n + (intoAccCode v).length + 2, s₃⟩ (u.symbol label) := by
    refine (Site.Has.step fetch.drop s₃).trans ?_
    change u.call _ (s₃.get .t1) = _
    rw [Cpu.get_set_self _ _ (by decide)]
    rfl
  refine ⟨⟨u.symbol label, s₃⟩, ⟨_, _, path.trans looked, jumps⟩, rfl, ?_, ?_⟩
  · exact ((Cpu.get_set_ne _ _ (by decide)).trans (Cpu.get_set_ne _ _ (by decide))).trans acc
  · exact (agree.set (by simp) _).set (by simp) _

variable {kind : AbortKind} {file : Const} {line : UInt64} {onVoid onward : BlockName}

/-- Where the register is not void, the machine gets to where the code goes on. -/
theorem guard_passes (distinct : (placed u.code).Nodup)
    (code : u.Has n (guardCode kind v file line onVoid onward)) (first : lo ≤ n)
    (last : n + (guardCode kind v file line onVoid onward).length < hi) (object : s.get v ≠ 0) :
    u.engine.Passes (Config.Between lo hi) ⟨n, s⟩
      ⟨n + (guardCode kind v file line onVoid onward).length, s⟩ := by
  have size : (guardCode kind v file line onVoid onward).length = 7 := rfl
  rw [size] at last ⊢
  have inside {j : Nat} (few : j ≤ 7) : Config.Between lo hi ⟨n + j, s⟩ :=
    ⟨show lo ≤ n + j by omega, show n + j < hi by omega⟩
  have label : u.Has (n + 6) [.label (.block onward)] :=
    code.tail.tail.tail.tail.tail.tail
  have missed : (⟨n + 1, s⟩ : Config) =
      ⟨if Meaning.holds .eq (s.get v).toInt (s.operand (.reg .zero)).toInt then n + 2 else n + 1,
        s⟩ := by
    have differs : Meaning.holds .eq (s.get v).toInt (s.operand (.reg .zero)).toInt = false :=
      decide_eq_false fun same => object (BitVec.eq_of_toInt_eq same)
    rw [differs]
    rfl
  have opened : u.Has (n + 2) (.label (.block onVoid) ::
      (abortCode kind file line ++ [.label (.block onward)])) := code.tail.tail
  have branch : u.engine.Passes (Config.Between lo hi) ⟨n, s⟩ ⟨n + 1, s⟩ :=
    passes_branch distinct code opened (inside (Nat.zero_le 7)) missed (inside (by decide))
  have jump : u.engine.Passes (Config.Between lo hi) ⟨n + 1, s⟩ ⟨n + 6, s⟩ :=
    passes_goto distinct code.tail label (inside (by decide)) (inside (by decide))
  have enter : u.engine.Passes (Config.Between lo hi) ⟨n + 6, s⟩ ⟨n + 7, s⟩ :=
    passes_exec label rfl fun j _ le ge => ⟨show lo ≤ j by omega, Nat.lt_of_le_of_lt ge last⟩
  exact (branch.trans jump).trans enter

theorem guarded_calls (distinct : (placed u.code).Nodup)
    (code : u.Has n (guardCode kind v file line onVoid onward ++ is)) (more : is ≠ [])
    (object : s.get v ≠ 0)
    (calls : u.CallsOn n (n + (guardCode kind v file line onVoid onward ++ is).length)
      ⟨n + (guardCode kind v file line onVoid onward).length, s⟩ v label) :
    u.CallsOn n (n + (guardCode kind v file line onVoid onward ++ is).length) ⟨n, s⟩ v label := by
  have behind := List.length_pos_of_ne_nil more
  rw [List.length_append] at calls ⊢
  have passes := guard_passes distinct code.take (Nat.le_refl n)
    (Nat.add_lt_add_left (Nat.lt_add_of_pos_right behind) n) object
  obtain ⟨k, leaves, target, acc, agree⟩ := calls
  exact ⟨k, passes.leaves leaves, target, acc, agree⟩

end Runs

section Units

/-- The machine has the tables of the data section in memory, and starts behind the code of the
arguments and of the receiver. -/
def calls (data : List Line) : Transcript.Calls backend Instr where
  dynamic before is after v _ d label := ∀ (u : Site) (s : Cpu), u.code = before ++ is ++ after →
    Loaded u.symbol data s.mem → s.get v ≠ 0 → Points u s v d →
    u.CallsOn before.length (before.length + is.length) ⟨before.length, s⟩ v label
  direct before is after v _ label := ∀ (u : Site) (s : Cpu), u.code = before ++ is ++ after →
    s.get v ≠ 0 →
    u.CallsOn before.length (before.length + is.length) ⟨before.length, s⟩ v label

theorem reaches {t : ClassTable} {data : List Line} {code : List Instr}
    (distinct : (placed code).Nodup)
    (tables : ∀ d ∈ t.classes, ∀ (slot : Nat) m, d.methods[slot]? = some m →
      (Data.wordsAt (Linkage.dispatchTable d.name) data)[slot]? = some (.sym m.label)) :
    (calls data).Reaches transcript t code where
  dynamic := by
    intro cx p recv args file v saved as es gs is before after t parts entry c slot r t' puts d m hd
      stands u cpu same loaded object points
    obtain ⟨_, _, _, way⟩ := entry
    obtain ⟨onVoid, onward, rfl⟩ := guard_puts way
    cases callDynamic_puts puts
    have there := has_of_eq same
    refine guarded_calls (same ▸ parts ▸ distinct) there (by simp [dynamicCode]) object
      (dynamic_calls there.drop (Nat.le_add_right ..) ?_ loaded points (tables d hd slot m stands))
    simp only [List.length_append]
    omega
  direct := by
    intro cx p recv args file v saved as es gs is before after t parts entry label r t' puts u cpu
      same object
    obtain ⟨_, _, _, way⟩ := entry
    obtain ⟨onVoid, onward, rfl⟩ := guard_puts way
    cases callDirect_puts puts
    have there := has_of_eq same
    refine guarded_calls (same ▸ parts ▸ distinct) there (by simp [directCode]) object
      (direct_calls there.drop (Nat.le_add_right ..) ?_ cpu)
    simp only [List.length_append]
    omega

end Units

end ClassBackend.Mips
