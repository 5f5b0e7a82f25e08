import ClassBackend.Program.Decode
import ClassBackend.Proofs.Json.Decoding

/-! Programs as forms, and their decoders. -/
namespace ClassBackend

open Json

def Info.form (info : Info) (kind : String) (content : Form) : Form :=
  .record [("kind", .variant kind content), ("ty", .str info.ty), ("line", .int info.line.toNat)]

def optionForm {α : Type} (form : α → Form) : Option α → Form
  | none => .null
  | some a => form a

namespace Expr

mutual

def form : Expr → Form
  | .bool i b => i.form "Bool" (.bool b)
  | .int i v => i.form "Int" (.int v.toInt)
  | .str i s => i.form "Str" (.str s)
  | .ident i name => i.form "Object" (.str name)
  | .binary i op lhs rhs =>
    i.form "Binary" (.record [("op", .str op.name), ("lhs", form lhs), ("rhs", form rhs)])
  | .unary i op e => i.form "Unary" (.record [("op", .str op.name), ("expr", form e)])
  | .new i cls => i.form "New" (.str cls)
  | .caseOf i e branches =>
    i.form "Case" (.record [("scrutinee", form e), ("branches", .list (branchForms branches))])
  | .letIn i name ty none body =>
    i.form "Let" (.record [
      ("name", .str name), ("ty", .str ty), ("init", .null), ("body", form body)])
  | .letIn i name ty (some init) body =>
    i.form "Let" (.record [
      ("name", .str name), ("ty", .str ty), ("init", form init), ("body", form body)])
  | .block i es => i.form "Block" (.list (forms es))
  | .loop i pred body => i.form "While" (.record [("pred", form pred), ("body", form body)])
  | .cond i pred onTrue onFalse =>
    i.form "If" (.record [("pred", form pred), ("then", form onTrue), ("els", form onFalse)])
  | .dispatch i recv staticType method args =>
    i.form "Dispatch" (.record [
      ("receiver", form recv), ("static_type", optionForm .str staticType),
      ("method", .str method), ("args", .list (forms args))])
  | .assign i name e => i.form "Assign" (.record [("name", .str name), ("expr", form e)])

def forms : List Expr → List Form
  | [] => []
  | e :: es => form e :: forms es

def branchForms : List (Branch Expr) → List Form
  | [] => []
  | ⟨name, ty, body⟩ :: bs =>
    .record [("name", .str name), ("ty", .str ty), ("body", form body)] :: branchForms bs

end

mutual

theorem form_toValue (e : Expr) : e.form.toValue = e.toJson := by
  match e with
  | .bool .. | .int .. | .str .. | .ident .. | .new .. => rfl
  | .binary _ _ lhs rhs =>
    rw [toJson, ← form_toValue lhs, ← form_toValue rhs]
    rfl
  | .unary _ _ e | .assign _ _ e =>
    rw [toJson, ← form_toValue e]
    rfl
  | .caseOf _ e branches =>
    rw [toJson, ← form_toValue e, ← branchForms_toValue branches]
    rfl
  | .letIn _ _ _ none body =>
    rw [toJson, ← form_toValue body]
    rfl
  | .letIn _ _ _ (some init) body =>
    rw [toJson, optionToJson, ← form_toValue init, ← form_toValue body]
    rfl
  | .block _ es =>
    rw [toJson, ← forms_toValue es]
    rfl
  | .loop _ pred body =>
    rw [toJson, ← form_toValue pred, ← form_toValue body]
    rfl
  | .cond _ pred onTrue onFalse =>
    rw [toJson, ← form_toValue pred, ← form_toValue onTrue, ← form_toValue onFalse]
    rfl
  | .dispatch _ recv staticType _ args =>
    rw [toJson, ← form_toValue recv, ← forms_toValue args]
    cases staticType <;> rfl

theorem forms_toValue (es : List Expr) : Form.itemValues (forms es) = listToJson es := by
  match es with
  | [] => rfl
  | e :: es => rw [forms, listToJson, Form.itemValues, form_toValue e, forms_toValue es]

theorem branchForms_toValue (bs : List (Branch Expr)) :
    Form.itemValues (branchForms bs) = branchesToJson bs := by
  match bs with
  | [] => rfl
  | ⟨name, ty, body⟩ :: bs =>
    rw [branchesToJson, ← form_toValue body, ← branchForms_toValue bs]
    rfl

end

theorem form_ne_null (e : Expr) : e.form ≠ .null := by
  cases e with
  | letIn _ _ _ init => cases init <;> nofun
  | _ => nofun

end Expr

def Formal.form (f : Formal) : Form := .record [("name", .str f.name), ("ty", .str f.ty)]

def Feature.form : Feature → Form
  | .attribute name ty init =>
    .variant "Attribute" (.record [
      ("name", .str name), ("ty", .str ty), ("init", optionForm Expr.form init)])
  | .method name formals returnType body =>
    .variant "Method" (.record [
      ("name", .str name), ("formals", .list (formals.map Formal.form)),
      ("return_type", .str returnType), ("body", optionForm Expr.form body)])

def ClassDecl.form (c : ClassDecl) : Form :=
  .record [
    ("name", .str c.name), ("parent", optionForm .str c.parent),
    ("features", .list (c.features.map Feature.form)), ("file_name", .str c.fileName)]

def Program.form (p : Program) : Form := .record [("classes", .list (p.classes.map ClassDecl.form))]

section Values

theorem itemValues_map {α : Type} {form : α → Form} {json : α → Value} (as : List α)
    (h : ∀ a, (form a).toValue = json a) : Form.itemValues (as.map form) = as.map json := by
  induction as with
  | nil => rfl
  | cons a as ih => rw [List.map_cons, List.map_cons, Form.itemValues, h, ih]

theorem optionForm_toValue (e : Option Expr) :
    (optionForm Expr.form e).toValue = Expr.optionToJson e := by
  cases e with
  | none => rfl
  | some e => exact e.form_toValue

theorem Feature.form_toValue (f : Feature) : f.form.toValue = f.toJson := by
  match f with
  | .attribute name ty init =>
    rw [toJson, ← optionForm_toValue]
    rfl
  | .method name formals returnType body =>
    have inner (f : Formal) : f.form.toValue = f.toJson := rfl
    rw [toJson, ← optionForm_toValue, ← itemValues_map formals inner]
    rfl

theorem ClassDecl.form_toValue (c : ClassDecl) : c.form.toValue = c.toJson := by
  rw [toJson, ← itemValues_map c.features Feature.form_toValue]
  cases parent : c.parent with
  | none | some =>
    rw [form, parent]
    rfl

theorem Program.form_toValue (p : Program) : p.form.toValue = p.toJson := by
  rw [toJson, ← itemValues_map p.classes ClassDecl.form_toValue]
  rfl

end Values

end ClassBackend
