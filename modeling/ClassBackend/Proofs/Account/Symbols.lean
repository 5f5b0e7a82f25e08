import ClassBackend.Proofs.Account.Laws
import ClassBackend.Proofs.Account.Unit
import ClassBackend.Proofs.Layout.Overriding
import ClassBackend.Proofs.Text.Words

/-! The symbols that a unit has for the classes, constants and methods of a program, and that they
are distinct. -/
namespace ClassBackend

open GlobalName Lowering

/-- The program declares no built-in class, names classes and methods as the language does, and has
a place to start in. -/
structure Program.Conventional (p : Program) : Prop where
  undeclared : ∀ c ∈ p.classes, Builtin.isBuiltin c.name = false
  capital : ∀ c ∈ p.classes, Capital c.name
  methods : ∀ c ∈ p.classes, (c.methods.map (·.name)).Nodup
  main : ∃ c ∈ p.classes, c.name = Builtin.mainName ∧ ∃ m ∈ c.methods, m.name = Builtin.mainMethod

def Builtin.methodLabels : List String :=
  Builtin.classes.flatMap fun c => c.methods.map fun m => Linkage.method c.name m.name

namespace Builtin

theorem capital : ∀ c ∈ classes, Capital c.name := by
  have large : ∀ c ∈ classes, startsLarge c.name = true ∧ '.' ∉ c.name.toList := by decide
  exact fun c hc => ⟨(large c hc).1, (large c hc).2⟩

theorem methods_nodup : ∀ c ∈ classes, (c.methods.map (·.name)).Nodup := by decide

end Builtin

structure ClassTable.Conventional (t : ClassTable) : Prop where
  names : (t.classes.map (·.name)).Nodup
  capital : ∀ k ∈ t.classes, Capital k.name
  methods : ∀ k ∈ t.classes, (k.decl.methods.map (·.name)).Nodup
  builtin : ∀ k ∈ t.classes, k.isBuiltin = true → k.decl ∈ Builtin.classes
  present : ∀ b ∈ Builtin.classes, ∃ k ∈ t.classes, k.decl = b
  main : ∃ k ∈ t.classes, k.name = Builtin.mainName ∧
    ∃ m ∈ k.decl.methods, m.name = Builtin.mainMethod
  owned : ∀ k ∈ t.classes, ∀ m ∈ k.methods, ∃ d ∈ t.classes, ∃ n ∈ d.decl.methods,
    m.label = Linkage.method d.name n.name

variable {p : Program} {t : ClassTable}

theorem ClassTable.method_owned (h : ClassTable.build p = .ok t) {k : ClassLayout}
    (hk : k ∈ t.classes) {m : Method} (hm : m ∈ k.methods) :
    ∃ d ∈ t.classes, ∃ n ∈ d.decl.methods, m.label = Linkage.method d.name n.name := by
  have found : k.methods.find? (fun n => n.name == m.name) = some m := by
    cases first : k.methods.find? fun n => n.name == m.name with
    | none => exact absurd (List.find?_eq_none.mp first m hm) (by simp)
    | some e =>
      have same := List.inj_on_of_nodup_map (ClassTable.methods_nodup h hk)
        (List.mem_of_find?_eq_some first) hm (eq_of_beq (List.find?_some first :))
      rw [same]
  obtain ⟨o, n, declared, same⟩ := ClassTable.entry_declared h hk found
  obtain ⟨ho, own⟩ := declared.declares
  obtain ⟨d, hd, rfl⟩ := ClassTable.exists_decl h ho
  have named : n.name = m.name := eq_of_beq (List.find?_some own :)
  refine ⟨d, hd, n, List.mem_reverse.mp (List.mem_of_find?_eq_some own), ?_⟩
  rw [same, named]
  rfl

theorem Program.Conventional.table (hp : p.Conventional)
    (h : ClassTable.build p.withBuiltins = .ok t) : t.Conventional := by
  have classes := Program.withBuiltins_append hp.undeclared
  have decl {k : ClassLayout} (hk : k ∈ t.classes) :
      k.decl ∈ Builtin.classes ∨ k.decl ∈ p.classes :=
    List.mem_append.mp (classes ▸ ClassTable.decl_mem h hk)
  refine ⟨ClassTable.names_nodup h, fun k hk => ?_, fun k hk => ?_, fun k hk builtin => ?_,
    fun b hb => ?_, ?_, fun k hk m hm => ClassTable.method_owned h hk hm⟩
  · exact (decl hk).elim (Builtin.capital _) (hp.capital _)
  · exact (decl hk).elim (Builtin.methods_nodup _) (hp.methods _)
  · refine (decl hk).resolve_right fun own => ?_
    rw [ClassLayout.isBuiltin, ClassLayout.name, hp.undeclared _ own] at builtin
    cases builtin
  · exact ClassTable.exists_decl h (classes ▸ List.mem_append_left _ hb)
  · obtain ⟨c, hc, named, m, hm, starts⟩ := hp.main
    obtain ⟨k, hk, rfl⟩ := ClassTable.exists_decl h (classes ▸ List.mem_append_right _ hc)
    exact ⟨k, hk, named, m, hm, starts⟩

def Const.numbered : Const → String × Nat
  | .int i => ("int_const", i)
  | .str i => ("str_const", i)
  | .bool b => ("bool_const", b.toNat)

theorem Const.numbered_text (c : Const) : c.numbered.1 ++ toString c.numbered.2 = c.label := by
  cases c with
  | int | str => rfl
  | bool b => cases b <;> rfl

theorem Const.texts (cs : List Const) :
    ((cs.map Const.numbered).map fun x => GlobalName.numbered x.1 x.2).map text =
      cs.map Const.label := by
  rw [List.map_map, List.map_map]
  exact List.map_congr_left fun c _ => c.numbered_text

theorem Pool.consts_perm (p : Pool) : (p.consts.map Const.label).Perm
    (p.stringEntries.map (·.1.label) ++ p.intEntries.map (·.1.label) ++
      [(Const.bool false).label, (Const.bool true).label]) := by
  have ints : p.intEntries.map (·.1.label) =
      ((List.range p.ints.length).map .int).map Const.label := by
    rw [← Pool.intEntries_consts, List.map_map]; rfl
  have texts : p.stringEntries.map (·.1.label) =
      ((List.range p.strings.length).map .str).map Const.label :=
    by rw [← Pool.stringEntries_consts, List.map_map]; rfl
  rw [ints, texts, Pool.consts, List.map_append, List.map_append]
  exact List.perm_append_comm.append_right _

theorem Const.plain (c : Const) :
    startsSmall c.numbered.1 = true ∧ plainEnd c.numbered.1 = true := by
  cases c <;> simp only [Const.numbered] <;> decide

theorem Const.numbered_inj : Function.Injective Const.numbered := by
  intro c d h
  cases c with
  | int | str => cases d <;> simp_all [Const.numbered]
  | bool b =>
    cases d with
    | int | str => simp [Const.numbered] at h
    | bool b' => cases b <;> cases b' <;> simp_all [Const.numbered]

namespace ClassLayout

def methodNames (k : ClassLayout) : List GlobalName :=
  k.decl.methods.map fun m => .method k.name m.name

/-- The functions that are emitted for the class, by name. -/
def functionNames (k : ClassLayout) : List GlobalName :=
  .artifact k.name .initializer :: if k.isBuiltin then [] else k.methodNames

theorem functionNames_text (k : ClassLayout) : k.functionNames.map text = k.functions := by
  unfold functionNames functions methodNames
  split
  · rfl
  · simp only [List.map_cons, List.map_map]
    rfl

def symbols (k : ClassLayout) (artifacts : List Artifact) : List GlobalName :=
  artifacts.map (.artifact k.name) ++ k.methodNames

theorem symbols_nodup {k : ClassLayout} (methods : (k.decl.methods.map (·.name)).Nodup)
    {artifacts : List Artifact} (distinct : artifacts.Nodup) : (k.symbols artifacts).Nodup := by
  have names : k.methodNames.Nodup := by
    have same : k.methodNames = (k.decl.methods.map (·.name)).map (.method k.name) := by
      rw [methodNames, List.map_map]
      rfl
    rw [same]
    exact methods.map fun _ _ h => by cases h; rfl
  refine List.Nodup.append (distinct.map fun _ _ h => by cases h; rfl) names ?_
  intro x hx hy
  obtain ⟨a, _, rfl⟩ := List.mem_map.mp hx
  simp [methodNames] at hy

end ClassLayout

namespace GlobalName

def owner? : GlobalName → Option String
  | .fixed _ | .numbered .. => none
  | .artifact c _ | .method c _ => some c

theorem owner_symbols {k : ClassLayout} {as : List Artifact} {x : GlobalName}
    (h : x ∈ k.symbols as) : x.owner? = some k.name := by
  rcases List.mem_append.mp h with made | declared
  · obtain ⟨a, _, rfl⟩ := List.mem_map.mp made
    rfl
  · obtain ⟨m, _, rfl⟩ := List.mem_map.mp declared
    rfl

end GlobalName

namespace ClassTable

variable {as : List Artifact} {f : ClassLayout → List GlobalName}

theorem Conventional.symbols_nodup (h : t.Conventional) (distinct : as.Nodup)
    (made : ∀ k ∈ t.classes, (f k).Sublist (k.symbols as)) : (t.classes.flatMap f).Nodup := by
  refine List.nodup_flatMap.mpr ⟨fun k hk => ?_, ?_⟩
  · exact (ClassLayout.symbols_nodup (h.methods k hk) distinct).sublist (made k hk)
  · refine (List.pairwise_map.mp h.names).imp_of_mem fun {j k} hj hk apart x hx hy => apart ?_
    have first := owner_symbols ((made j hj).subset hx)
    exact Option.some.inj (first.symm.trans (owner_symbols ((made k hk).subset hy)))

theorem Conventional.symbols_legible (h : t.Conventional)
    (made : ∀ k ∈ t.classes, (f k).Sublist (k.symbols as)) {x : GlobalName}
    (hx : x ∈ t.classes.flatMap f) : x.Legible := by
  obtain ⟨k, hk, hx⟩ := List.mem_flatMap.mp hx
  rcases List.mem_append.mp ((made k hk).subset hx) with artifact | declared
  · obtain ⟨a, _, rfl⟩ := List.mem_map.mp artifact
    exact h.capital k hk
  · obtain ⟨m, _, rfl⟩ := List.mem_map.mp declared
    exact h.capital k hk

/-- The symbols of a unit: those that every unit has, those with a number, and those of classes. -/
def unitNames (t : ClassTable) (fixed : List String) (numbered : List (String × Nat))
    (f : ClassLayout → List GlobalName) : List GlobalName :=
  fixed.map .fixed ++ numbered.map (fun x => .numbered x.1 x.2) ++ t.classes.flatMap f

variable {fixed : List String} {numbered : List (String × Nat)}

theorem Conventional.unitNames_nodup (h : t.Conventional) (hf : fixed.Nodup) (hn : numbered.Nodup)
    (distinct : as.Nodup) (made : ∀ k ∈ t.classes, (f k).Sublist (k.symbols as)) :
    (t.unitNames fixed numbered f).Nodup := by
  have first : (fixed.map GlobalName.fixed).Nodup := hf.map fun _ _ h => by cases h; rfl
  have second : (numbered.map fun x => GlobalName.numbered x.1 x.2).Nodup :=
    hn.map fun ⟨_, _⟩ ⟨_, _⟩ h => by cases h; rfl
  refine (first.append second ?_).append (h.symbols_nodup distinct made) ?_
  · intro x hx hy
    obtain ⟨s, _, rfl⟩ := List.mem_map.mp hx
    obtain ⟨n, _, same⟩ := List.mem_map.mp hy
    cases same
  · intro x hx hy
    obtain ⟨k, hk, hy⟩ := List.mem_flatMap.mp hy
    have owner := owner_symbols ((made k hk).subset hy)
    rcases List.mem_append.mp hx with hx | hx
    · obtain ⟨s, _, rfl⟩ := List.mem_map.mp hx
      cases owner
    · obtain ⟨n, _, rfl⟩ := List.mem_map.mp hx
      cases owner

theorem Conventional.unitNames_legible (h : t.Conventional)
    (hf : ∀ s ∈ fixed, startsSmall s = true ∧ plainEnd s = true)
    (hn : ∀ x ∈ numbered, startsSmall x.1 = true ∧ plainEnd x.1 = true)
    (made : ∀ k ∈ t.classes, (f k).Sublist (k.symbols as)) :
    ∀ x ∈ t.unitNames fixed numbered f, x.Legible := by
  intro x hx
  rcases List.mem_append.mp hx with hx | hx
  · rcases List.mem_append.mp hx with hx | hx
    · obtain ⟨s, hs, rfl⟩ := List.mem_map.mp hx
      exact hf s hs
    · obtain ⟨n, hs, rfl⟩ := List.mem_map.mp hx
      exact hn n hs
  · exact h.symbols_legible made hx

/-- The methods of a table have their bodies in the unit or in the runtime. -/
theorem Conventional.label_known (h : t.Conventional) {k : ClassLayout} (hk : k ∈ t.classes)
    {m : Method} (hm : m ∈ k.methods) :
    m.label ∈ t.functions ∨ m.label ∈ Builtin.methodLabels := by
  obtain ⟨d, hd, n, hn, label⟩ := h.owned k hk m hm
  rw [label]
  cases builtin : d.isBuiltin with
  | true =>
    exact .inr (List.mem_flatMap.mpr
      ⟨d.decl, h.builtin d hd builtin, List.mem_map.mpr ⟨n, hn, rfl⟩⟩)
  | false =>
    refine .inl (List.mem_flatMap.mpr ⟨d, hd, List.mem_cons_of_mem _ ?_⟩)
    rw [builtin]
    exact List.mem_map.mpr ⟨n, hn, rfl⟩

theorem Conventional.main_mem (h : t.Conventional) :
    Linkage.method Builtin.mainName Builtin.mainMethod ∈ t.functions := by
  obtain ⟨k, hk, named, m, hm, starts⟩ := h.main
  have own : k.isBuiltin = false := by rw [ClassLayout.isBuiltin, named]; decide
  refine List.mem_flatMap.mpr ⟨k, hk, List.mem_cons_of_mem _ ?_⟩
  rw [own, ← named, ← starts]
  exact List.mem_map.mpr ⟨m, hm, rfl⟩

end ClassTable

/-! The names of a unit are words where those of the program are. -/

def Program.Spelled (p : Program) : Prop :=
  ∀ c ∈ p.classes, isWord c.name = true ∧ ∀ m ∈ c.methods, isWord m.name = true

def ClassTable.Spelled (t : ClassTable) : Prop :=
  ∀ k ∈ t.classes, isWord k.name = true ∧ ∀ m ∈ k.decl.methods, isWord m.name = true

theorem Program.Spelled.table {p : Program} {t : ClassTable} (hp : p.Spelled)
    (h : ClassTable.build p.withBuiltins = .ok t) : t.Spelled := by
  have builtin : ∀ c ∈ Builtin.classes,
      isWord c.name = true ∧ ∀ m ∈ c.methods, isWord m.name = true := by decide
  intro k hk
  rcases List.mem_append.mp (ClassTable.decl_mem h hk) with added | own
  · exact builtin k.decl (List.mem_filter.mp added).1
  · exact hp k.decl own

namespace GlobalName

def Spelled : GlobalName → Prop
  | .fixed s => isName s = true
  | .numbered s _ => isWord s = true ∧ '_' ∈ s.toList
  | .artifact c _ => isWord c = true
  | .method c m => isWord c = true ∧ isWord m = true

theorem Spelled.name {x : GlobalName} (h : x.Spelled) : isName x.text = true := by
  cases x with
  | fixed s => exact h
  | numbered s n =>
    have word : isWord (s ++ toString n) = true := isWord_append h.1 (isWord_numeral n)
    refine isName_letter (c := '_') word ?_ (by decide) (by decide)
    rw [text, String.toList_append]
    exact List.mem_append_left _ h.2
  | artifact c a =>
    have word : isWord a.suffix = true := by cases a <;> decide
    refine isName_letter (c := '_') (isWord_append h word) ?_ (by decide) (by decide)
    rw [text, String.toList_append]
    exact List.mem_append_right _ (by cases a <;> decide)
  | method c m =>
    have word : isWord (c ++ "." ++ m) = true :=
      isWord_append (isWord_append h.1 (by decide)) h.2
    refine isName_letter (c := '.') word ?_ (by decide) (by decide)
    show '.' ∈ (c ++ "." ++ m).toList
    rw [String.toList_append, String.toList_append]
    exact List.mem_append_left _ (List.mem_append_right _ (by decide))

end GlobalName

theorem Const.spelled (c : Const) : (GlobalName.numbered c.numbered.1 c.numbered.2).Spelled := by
  cases c <;> simp only [Const.numbered, Spelled] <;> decide

theorem ClassTable.Spelled.unitNames {t : ClassTable} (h : t.Spelled) {fixed : List String}
    {numbered : List (String × Nat)} {f : ClassLayout → List GlobalName} {as : List Artifact}
    (hf : ∀ s ∈ fixed, isName s = true)
    (hn : ∀ x ∈ numbered, (GlobalName.numbered x.1 x.2).Spelled)
    (made : ∀ k ∈ t.classes, (f k).Sublist (k.symbols as)) :
    ∀ x ∈ t.unitNames fixed numbered f, isName x.text = true := by
  refine fun x hx => Spelled.name ?_
  rcases List.mem_append.mp hx with hx | hx
  · rcases List.mem_append.mp hx with hx | hx
    · obtain ⟨s, hs, rfl⟩ := List.mem_map.mp hx
      exact hf s hs
    · obtain ⟨n, hs, rfl⟩ := List.mem_map.mp hx
      exact hn n hs
  · obtain ⟨k, hk, hx⟩ := List.mem_flatMap.mp hx
    obtain ⟨word, methods⟩ := h k hk
    rcases List.mem_append.mp ((made k hk).subset hx) with artifact | method
    · obtain ⟨b, _, rfl⟩ := List.mem_map.mp artifact
      exact word
    · obtain ⟨m, hm, rfl⟩ := List.mem_map.mp method
      exact ⟨word, methods m hm⟩

theorem Nameable.name {V : Vocabulary} {t : ClassTable} {p : Pool} {s : String}
    (h : Nameable V t p s) (others : ∀ s ∈ V.others, isName s = true) (ht : t.Conventional)
    (spelled : t.Spelled) : isName s = true := by
  cases h with
  | @const c =>
    rw [← Const.numbered_text]
    exact c.spelled.name
  | @artifact k a hk => exact Spelled.name (x := .artifact k.name a) (spelled k hk).1
  | method hk hm =>
    obtain ⟨d, hd, n, hn, same⟩ := ht.owned _ hk _ hm
    rw [same]
    exact Spelled.name (x := .method d.name n.name) ⟨(spelled d hd).1, (spelled d hd).2 n hn⟩
  | other hs => exact others s hs

end ClassBackend
