import ClassBackend.CommandLine.Run
import ClassBackend.Proofs.Program.Form

/-! The JSON form of a program is read back as that program, however it is written. -/
namespace ClassBackend

open Json

variable {l : Limits}

theorem BinOp.decodes (op : BinOp) : Decodes l BinOp.decoder (.str op.name) op :=
  oneOf_alone (by cases op <;> decide)

theorem UnOp.decodes (op : UnOp) : Decodes l UnOp.decoder (.str op.name) op :=
  oneOf_alone (by cases op <;> decide)

theorem enter_nesting {l' : Limits} {n : Nat} (entered : l.enter = some l')
    (h : l.nesting < n + 1) : l'.nesting < n := by
  unfold Limits.enter at entered
  split at entered
  · cases entered
  · rename_i m nesting
    cases entered
    rw [nesting] at h
    exact Nat.lt_of_succ_lt_succ h

theorem optional_form {α : Type} {d : Decoder α} {form : α → Form} {name : String} (x : Option α)
    (h : ∀ a ∈ x, form a ≠ .null ∧ Decodes l d (form a) a) :
    Reads l (.optional name d) [(name, optionForm form x)] x := by
  apply optional_reads
  cases x with
  | none => rfl
  | some a => exact h a rfl

theorem str_reads {name : String} (s : String) :
    Reads l (.required name Json.string) [(name, .str s)] s :=
  required_reads (string_decodes s) nofun

namespace Expr

theorem kind_decodes {n : Nat} {content : Form} {g : Info → Expr}
    {payload : Decoder (Info → Expr)} (info : Info) (kind : String) (deep : l.nesting < n + 1)
    (reads : ∀ l', l'.nesting < n → Decodes l' payload content g)
    (found : ((kinds (decoderUpTo n)).find? fun v => v.name == kind) =
      some (.content kind payload)) :
    Decodes l (decoderUpTo (n + 1)) (info.form kind content) (g info) := by
  refine record_decodes (by simp) fun l' entered => ?_
  have inner := enter_nesting entered deep
  have kinds : Decodes l' (oneOf (kinds (decoderUpTo n))) (.variant kind content) g :=
    oneOf_decodes found fun l'' entered' =>
      reads l'' (enter_nesting entered' (Nat.lt_succ_of_lt inner))
  exact build3_reads (fun kind ty line => kind ⟨ty, line⟩) (required_reads kinds nofun)
    (str_reads info.ty) (required_reads (uint64_decodes info.line) nofun) (by simp)

theorem record_kind_decodes {n : Nat} {F : Fields (Info → Expr)} {fs : List (String × Form)}
    {g : Info → Expr} (info : Info) (kind : String) (deep : l.nesting < n + 1)
    (names : (fs.map Prod.fst).Nodup) (reads : ∀ l', l'.nesting < n → Reads l' F fs g)
    (found : ((kinds (decoderUpTo n)).find? fun v => v.name == kind) =
      some (.content kind (record F))) :
    Decodes l (decoderUpTo (n + 1)) (info.form kind (.record fs)) (g info) :=
  kind_decodes info kind deep (fun _ inner => record_decodes names fun l' entered =>
    reads l' (enter_nesting entered (Nat.lt_succ_of_lt inner))) found

mutual

/-- An expression is read by any reader that goes as deep as may be nested. -/
theorem decodes (e : Expr) (n : Nat) (l : Limits) (deep : l.nesting < n) :
    Decodes l (decoderUpTo n) e.form e := by
  obtain ⟨n, rfl⟩ := Nat.exists_eq_succ_of_ne_zero (Nat.ne_of_gt (Nat.zero_lt_of_lt deep))
  match e with
  | .bool i b =>
    exact kind_decodes i "Bool" deep (fun _ _ => (bool_decodes b).map fun b i => Expr.bool i b) rfl
  | .int i v =>
    exact kind_decodes i "Int" deep (fun _ _ => (int64_decodes v).map fun v i => Expr.int i v) rfl
  | .str i s =>
    exact kind_decodes i "Str" deep (fun _ _ => (string_decodes s).map fun s i => Expr.str i s) rfl
  | .ident i x =>
    exact kind_decodes i "Object" deep
      (fun _ _ => (string_decodes x).map fun x i => Expr.ident i x) rfl
  | .new i ty =>
    exact kind_decodes i "New" deep
      (fun _ _ => (string_decodes ty).map fun ty i => Expr.new i ty) rfl
  | .binary i op lhs rhs =>
    refine record_kind_decodes (g := fun i => .binary i op lhs rhs) i "Binary" deep (by simp)
      (fun l inner => ?_) rfl
    exact build3_reads _ (required_reads op.decodes nofun) (expr_reads lhs n l inner)
      (expr_reads rhs n l inner) (by simp)
  | .unary i op e =>
    refine record_kind_decodes (g := fun i => .unary i op e) i "Unary" deep (by simp)
      (fun l inner => ?_) rfl
    exact build2_reads _ (required_reads op.decodes nofun) (expr_reads e n l inner) (by simp)
  | .caseOf i e branches =>
    refine record_kind_decodes (g := fun i => .caseOf i e branches) i "Case" deep (by simp)
      (fun l inner => ?_) rfl
    have list : Decodes l (Json.list (branch (decoderUpTo n))) (.list (branchForms branches))
        branches :=
      list_decodes fun l' entered =>
        branches_decode branches n l' (enter_nesting entered (Nat.lt_succ_of_lt inner))
    exact build2_reads _ (expr_reads e n l inner) (required_reads list nofun) (by simp)
  | .letIn i name ty none body =>
    refine record_kind_decodes (g := fun i => .letIn i name ty none body) i "Let" deep (by simp)
      (fun l inner => ?_) rfl
    exact build4_reads _ (str_reads name) (str_reads ty) (optional_reads rfl)
      (expr_reads body n l inner) (by simp)
  | .letIn i name ty (some init) body =>
    refine record_kind_decodes (g := fun i => .letIn i name ty (some init) body) i "Let" deep
      (by simp) (fun l inner => ?_) rfl
    exact build4_reads _ (str_reads name) (str_reads ty)
      (optional_reads ⟨init.form_ne_null, decodes init n l inner⟩)
      (expr_reads body n l inner) (by simp)
  | .block i es =>
    have list (l : Limits) (inner : l.nesting < n) :
        Decodes l (Json.list (decoderUpTo n)) (.list (forms es)) es :=
      list_decodes fun l' entered =>
        list_decode es n l' (enter_nesting entered (Nat.lt_succ_of_lt inner))
    exact kind_decodes i "Block" deep
      (fun l inner => (list l inner).map fun es i => Expr.block i es) rfl
  | .loop i pred body =>
    refine record_kind_decodes (g := fun i => .loop i pred body) i "While" deep (by simp)
      (fun l inner => ?_) rfl
    exact build2_reads _ (expr_reads pred n l inner) (expr_reads body n l inner) (by simp)
  | .cond i pred onTrue onFalse =>
    refine record_kind_decodes (g := fun i => .cond i pred onTrue onFalse) i "If" deep (by simp)
      (fun l inner => ?_) rfl
    exact build3_reads _ (expr_reads pred n l inner) (expr_reads onTrue n l inner)
      (expr_reads onFalse n l inner) (by simp)
  | .dispatch i recv staticType method args =>
    refine record_kind_decodes (g := fun i => .dispatch i recv staticType method args) i "Dispatch"
      deep (by simp) (fun l inner => ?_) rfl
    have list : Decodes l (Json.list (decoderUpTo n)) (.list (forms args)) args :=
      list_decodes fun l' entered =>
        list_decode args n l' (enter_nesting entered (Nat.lt_succ_of_lt inner))
    exact build4_reads _ (expr_reads recv n l inner) (optional_form staticType fun s _ =>
      ⟨nofun, string_decodes s⟩) (str_reads method) (required_reads list nofun) (by simp)
  | .assign i name e =>
    refine record_kind_decodes (g := fun i => .assign i name e) i "Assign" deep (by simp)
      (fun l inner => ?_) rfl
    exact build2_reads _ (str_reads name) (expr_reads e n l inner) (by simp)

theorem expr_reads {name : String} (e : Expr) (n : Nat) (l : Limits) (deep : l.nesting < n) :
    Reads l (.required name (decoderUpTo n)) [(name, e.form)] e :=
  required_reads (decodes e n l deep) e.form_ne_null

theorem list_decode (es : List Expr) (n : Nat) (l : Limits) (deep : l.nesting < n) :
    List.Forall₂ (Decodes l (decoderUpTo n)) (forms es) es := by
  match es with
  | [] => exact .nil
  | e :: es => exact .cons (decodes e n l deep) (list_decode es n l deep)

theorem branches_decode (bs : List (Branch Expr)) (n : Nat) (l : Limits) (deep : l.nesting < n) :
    List.Forall₂ (Decodes l (branch (decoderUpTo n))) (branchForms bs) bs := by
  match bs with
  | [] => exact .nil
  | ⟨name, ty, body⟩ :: bs =>
    refine .cons (record_decodes (by simp) fun l' entered => ?_) (branches_decode bs n l deep)
    exact build3_reads Branch.mk (str_reads name) (str_reads ty)
      (expr_reads body n l' (enter_nesting entered (Nat.lt_succ_of_lt deep))) (by simp)

end

theorem decoder_decodes (e : Expr) (l : Limits) : Decodes l decoder e.form e := by
  intro ts us writes ends size
  have deep := decodes e (l.nesting + 1) l (Nat.lt_succ_self _) ts us writes ends size
  exact deep

end Expr

theorem list_of_decodes {α : Type} {d : Decoder α} {form : α → Form} (as : List α)
    (h : ∀ l a, Decodes l d (form a) a) : Decodes l (Json.list d) (.list (as.map form)) as := by
  refine list_decodes fun l' _ => ?_
  induction as with
  | nil => exact .nil
  | cons a as ih => exact .cons (h l' a) ih

theorem Formal.decodes (l : Limits) (f : Formal) : Decodes l decoder f.form f :=
  record_decodes (by simp) fun _ _ => build2_reads Formal.mk (str_reads f.name) (str_reads f.ty)
    (by simp)

theorem body_reads {name : String} (body : Option Expr) :
    Reads l (.optional name Expr.decoder) [(name, optionForm Expr.form body)] body :=
  optional_form body fun e _ => ⟨e.form_ne_null, e.decoder_decodes l⟩

theorem Feature.decodes (l : Limits) (f : Feature) : Decodes l decoder f.form f := by
  match f with
  | .attribute name ty init =>
    refine oneOf_decodes rfl fun l' _ => record_decodes (by simp) fun l'' _ => ?_
    exact build3_reads Feature.attribute (str_reads name) (str_reads ty) (body_reads init) (by simp)
  | .method name formals returnType body =>
    refine oneOf_decodes rfl fun l' _ => record_decodes (by simp) fun l'' _ => ?_
    exact build4_reads Feature.method (str_reads name)
      (required_reads (list_of_decodes formals Formal.decodes) nofun) (str_reads returnType)
      (body_reads body) (by simp)

theorem ClassDecl.decodes (l : Limits) (c : ClassDecl) : Decodes l decoder c.form c := by
  refine record_decodes (by simp) fun l' _ => ?_
  exact build4_reads ClassDecl.mk (str_reads c.name)
    (optional_form c.parent fun s _ => ⟨nofun, string_decodes s⟩)
    (required_reads (list_of_decodes c.features Feature.decodes) nofun) (str_reads c.fileName)
    (by simp)

theorem Program.decodes (l : Limits) (p : Program) : Decodes l decoder p.form p := by
  refine record_decodes (by simp) fun l' _ => ?_
  exact build1_reads Program.mk (required_reads (list_of_decodes p.classes ClassDecl.decodes) nofun)

theorem decode_written {α : Type} {d : Decoder α} {f : Form} {a : α} {ts : List Token}
    {text : String} (nesting : Nat) (h : ∀ l, Decodes l d f a) (writes : f.Writes ts)
    (spaced : Spaced ts text.toList) :
    decode d nesting text = if f.depth ≤ nesting then .ok a else .error .malformed := by
  have size : ts.length ≤ text.toList.length + 1 := Nat.le_succ_of_le spaced.length_le
  have whole : Spaced (ts ++ []) text.toList := by rwa [List.append_nil]
  obtain ⟨value, refusal⟩ :=
    h ⟨nesting, text.toList.length + 1⟩ ts [] writes (by simp [Ends]) size _ whole
  unfold decode
  split_ifs with fits
  · obtain ⟨rest, read, done⟩ := value fits
    simp [read, done.trim_done]
  · simp [refusal fits]

namespace Program

/-- The texts that say the same as the JSON form of the program: the fields of a record may come in
any order, with other keys among them and without those that are null, and blanks may stand between
tokens. -/
def Written (p : Program) (text : String) : Prop :=
  ∃ ts, p.form.Writes ts ∧ Spaced ts text.toList

theorem written_text (p : Program) : p.Written p.toJson.text := by
  have compact := Form.exists_text p.form
  rwa [p.form_toValue] at compact

theorem ofJson_written {p : Program} {text : String} (h : p.Written text) :
    ofJson text = if p.toJson.depth ≤ maxNesting then .ok p else .error .malformed := by
  obtain ⟨ts, writes, spaced⟩ := h
  rw [← p.form_toValue]
  exact decode_written maxNesting p.decodes writes spaced

end Program

/-- A file that holds the JSON form of a program is read as that program if at most 127 arrays and
objects are open at once, and refused as malformed if more are; within the limit the form may be
written in any other way. -/
theorem readProgram_roundTrip {m : Type → Type} [Monad m] [LawfulMonad m] (host : Host m)
    (path : String) (p : Program) :
    (host.readFile path = pure (.ok p.toJson.text) → readProgram host path =
      if p.toJson.depth ≤ 127 then pure p else throw (.decode path .malformed)) ∧
    ∀ text, p.Written text → host.readFile path = pure (.ok text) → p.toJson.depth ≤ 127 →
      readProgram host path = pure p := by
  have reads (text : String) (written : p.Written text)
      (holds : host.readFile path = pure (.ok text)) : readProgram host path =
        if p.toJson.depth ≤ 127 then pure p else throw (.decode path .malformed) := by
    have value := Program.ofJson_written written
    rw [Program.maxNesting] at value
    unfold readProgram
    rw [holds]
    simp only [liftM_pure, pure_bind, value]
    split_ifs <;> rfl
  refine ⟨reads _ p.written_text, fun text written holds fits => ?_⟩
  rw [reads text written holds, if_pos fits]

/-- A class whose form is written with its keys in another order, without its parent, and with a key
that means nothing. -/
def loose : Program := ⟨[⟨"A", none, [], "é.cl"⟩]⟩

def looseTokens : List (List Char × Token) := [
  (['\n'], ['{']), ([' '], Text.quote "classes"), ([], [':']), (['\t', ' '], ['[']),
  ([], ['{']), ([], Text.quote "features"), ([], [':']), ([], ['[']), ([' '], [']']), ([], [',']),
  ([' '], Text.quote "since"), ([], [':']), ([], ['[']), ([], ['-', '1', '.', '5', 'e', '3']),
  ([], [',']), ([' '], ['{']), ([], ['}']), ([], [']']), ([], [',']), ([], Text.quote "file_name"),
  ([' '], [':']), ([' '], ['"', '\\', 'u', '0', '0', 'e', '9', '.', 'c', 'l', '"']), ([], [',']),
  ([' '], Text.quote "name"), ([], [':']), ([' '], Text.quote "A"), ([], ['}']), ([], [']']),
  (['\n'], ['}'])]

/-- Parentheses, as the front end hands them over: an expression inside others. -/
def nested : Nat → Expr
  | 0 => .bool ⟨"Bool", 1⟩ true
  | n + 1 => .unary ⟨"Bool", 1⟩ .not (nested n)

def deep (n : Nat) : Program := ⟨[⟨"A", none, [.attribute "x" "Bool" (some (nested n))], "a.cl"⟩]⟩

def holding (text : String) : Host Id where
  readFile _ := .ok text
  writeFile _ _ := .ok ()
  spawn _ _ := .ok 0
  features := none

theorem since_sound :
    Sound ([['[']] ++ separated [[['-', '1', '.', '5', 'e', '3']], [['{'], ['}']]] ++ [[']']]) := by
  have digits (c : Char) (h : c ∈ "0123456789".toList) : Digits [c] :=
    ⟨List.cons_ne_nil _ _, by simpa using h⟩
  have exponent : Exponential ('e' :: ([] ++ ['3'])) :=
    .digits (by simp) (by simp) (digits '3' (by decide))
  have number : Numeric (['-'] ++ (['1'] ++ (['.', '5'] ++ ('e' :: ([] ++ ['3']))))) :=
    .of (by simp) (.digits (by decide) (digits '1' (by decide)))
      (.digits (digits '5' (by decide))) exponent
  have object : Sound ([['{']] ++ separated (([] : List (List Char × List Token)).map member) ++
      [['}']]) := .object (List.forall_mem_nil _) (List.forall_mem_nil _)
  refine .array (List.forall_mem_cons.mpr ⟨.number number, ?_⟩)
  exact List.forall_mem_cons.mpr ⟨object, List.forall_mem_nil _⟩

/-- The class of that program: its features, a key that means nothing, its file and its name. -/
theorem loose_class_writes : (ClassDecl.mk "A" none [] "é.cl").form.Writes
    ([['{']] ++ separated [
      Text.quote "features" :: [':'] :: ([['[']] ++ separated [] ++ [[']']]),
      Text.quote "since" :: [':'] :: ([['[']] ++
        separated [[['-', '1', '.', '5', 'e', '3']], [['{'], ['}']]] ++ [[']']]),
      Text.quote "file_name" :: [':'] ::
        [['"', '\\', 'u', '0', '0', 'e', '9', '.', 'c', 'l', '"']],
      Text.quote "name" :: [':'] :: [Text.quote "A"]] ++ [['}']]) := by
  have escaped : Spells "é.cl".toList ['\\', 'u', '0', '0', 'e', '9', '.', 'c', 'l'] := by
    have number : hexNumber? '0' '0' 'e' '9' = some 233 := rfl
    exact .unit number (by decide) (by decide) (spells_escape ['.', 'c', 'l'])
  have file : Form.Writes (.str "é.cl")
      [['"', '\\', 'u', '0', '0', 'e', '9', '.', 'c', 'l', '"']] := .str ⟨_, escaped, rfl⟩
  let features : String × Form := ("features", .list [])
  let fileName : String × Form := ("file_name", .str "é.cl")
  let name : String × Form := ("name", .str "A")
  let parent : String × Form := ("parent", .null)
  have order : ([features, fileName, name] ++ [parent]).Perm [name, parent, features, fileName] :=
    @List.perm_append_comm _ [features, fileName] [name, parent]
  refine .record order (by simp [parent]) ?_
  refine .known (quotes_quote _) (.list .nil) ?_
  refine .unknown (quotes_quote _) (by decide) since_sound ?_
  refine .known (quotes_quote _) file ?_
  exact .known (quotes_quote _) (.str (quotes_quote _)) .nil

theorem loose_writes : loose.form.Writes (looseTokens.map Prod.snd) := by
  have classes : Form.Writes (.list [(ClassDecl.mk "A" none [] "é.cl").form]) _ :=
    .list (.cons loose_class_writes .nil)
  have order := List.Perm.refl [("classes", Form.list [(ClassDecl.mk "A" none [] "é.cl").form])]
  rw [← List.append_nil [("classes", _)]] at order
  exact .record order (List.forall_mem_nil _) (.known (quotes_quote _) classes .nil)

theorem loose_written : loose.Written (String.ofList (spacedText looseTokens ['\n'])) := by
  refine ⟨_, loose_writes, ?_⟩
  rw [String.toList_ofList]
  exact spaced_text (by decide) (by decide)

theorem loose_roundTrip :
    readProgram (holding (String.ofList (spacedText looseTokens ['\n']))) "a.json" = pure loose ∧
    readProgram (holding (deep 39).toJson.text) "a.json" = pure (deep 39) ∧
    readProgram (holding (deep 40).toJson.text) "a.json" =
      throw (.decode "a.json" .malformed) := by
  have deepest (n : Nat) :=
    (readProgram_roundTrip (holding (deep n).toJson.text) "a.json" (deep n)).1 rfl
  refine ⟨?_, ?_, ?_⟩
  · exact (readProgram_roundTrip (holding _) "a.json" loose).2 _ loose_written rfl
      (by decide +kernel)
  · rw [deepest, if_pos (by decide +kernel)]
  · rw [deepest, if_neg (by decide +kernel)]

end ClassBackend
