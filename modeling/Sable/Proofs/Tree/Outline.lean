import Sable.Proofs.Token.Pieces
import Sable.Proofs.Tree.Items
import Sable.Proofs.Tree.Printed

/-!
Trees without places.

An outline has the nodes of a tree, but neither says where they stand nor which ones they are. Dumps tell a little less
than outlines: three things are written in two ways each that look alike in a dump, and a merged outline has only one
of the two.
-/

namespace Sable

variable (merged : Bool)

def Spanned.bare {α : Type} (a : Spanned α) : Spanned α := ⟨a.value, default⟩

def Generics.outline (names : Generics) : Generics := names.map Spanned.bare

namespace TypeExpr

/-- A named type. `Nullable[T]` looks like `T?`. -/
def outlineNamed (name : String) : List TypeExpr → TypeExpr
  | [inner] => if merged && name == "Nullable" then nullable default inner else named default name [inner]
  | arguments => named default name arguments

mutual

def outline : TypeExpr → TypeExpr
  | named _ name arguments => outlineNamed merged name (outlineEach arguments)
  | object _ fields => object default (outlineFields fields)
  | function _ names ps result => function default names.outline (outlineParameters ps) result.outline
  | nullable _ inner => nullable default inner.outline

def outlineEach : List TypeExpr → List TypeExpr
  | [] => []
  | t :: rest => t.outline :: outlineEach rest

def outlineFields : List (String × TypeExpr) → List (String × TypeExpr)
  | [] => []
  | (name, t) :: rest => (name, t.outline) :: outlineFields rest

def outlineParameters : ParameterList (Parameter TypeExpr) → ParameterList (Parameter TypeExpr)
  | .fixed ps => .fixed (outlineEachParameter ps)
  | .variadic ⟨name, t, _⟩ => .variadic ⟨name.bare, t.outline, default⟩

def outlineEachParameter : List (Parameter TypeExpr) → List (Parameter TypeExpr)
  | [] => []
  | ⟨name, t, _⟩ :: rest => ⟨name.bare, t.outline, default⟩ :: outlineEachParameter rest

end

theorem outlineEach_eq_map (types : List TypeExpr) : outlineEach merged types = types.map (outline merged) := by
  induction types with
  | nil => rfl
  | cons t rest ih => rw [outlineEach, ih, List.map_cons]

theorem outlineFields_eq_map (fields : List (String × TypeExpr)) :
    outlineFields merged fields = fields.map fun field => (field.1, field.2.outline merged) := by
  induction fields with
  | nil => rfl
  | cons field rest ih => rw [outlineFields, ih, List.map_cons]

theorem outlineEachParameter_eq_map (ps : List (Parameter TypeExpr)) : outlineEachParameter merged ps =
    ps.map fun p => ⟨p.name.bare, p.type.outline merged, default⟩ := by
  induction ps with
  | nil => rfl
  | cons p rest ih => rw [outlineEachParameter, ih, List.map_cons]

end TypeExpr

namespace Expr

/-- A number. One too large for a float is written like the name `inf`. -/
def outlineNumber (x : Float) : Expr :=
  if merged && Token.isName (numberText .source x) then reference default (numberText .source x) else number default x

/-- A call. `tag(x, T)` looks like `x # T`. -/
def outlineCall (callee : Expr) (types : List TypeExpr) (arguments : List Expr) : Expr :=
  match callee, types, arguments with
  | reference _ name, [], [value, reference _ tag] =>
    if merged && name == "tag" then tagged default value tag else call default callee types arguments
  | _, _, _ => call default callee types arguments

mutual

def outline : Expr → Expr
  | number _ x => outlineNumber merged x
  | bigInteger _ digits => bigInteger default digits
  | boolean _ b => boolean default b
  | null _ => null default
  | object _ fields => object default (outlineFields fields)
  | reference _ name => reference default name
  | binary _ op lhs rhs => binary default op lhs.outline rhs.outline
  | unary _ op operand => unary default op operand.outline
  | conditional _ condition thenBranch elseBranch =>
    conditional default condition.outline thenBranch.outline elseBranch.outline
  | call _ callee types arguments =>
    outlineCall merged callee.outline (types.map (TypeExpr.outline merged)) (outlineEach arguments)
  | lambda _ names ps result body =>
    lambda default names.outline (TypeExpr.outlineParameters merged ps) (result.map (TypeExpr.outline merged))
      body.outline
  | field _ owner name => field default owner.outline name
  | tagged _ value tag => tagged default value.outline tag
  | hasTag _ value tag => hasTag default value.outline tag
  | untag _ value => untag default value.outline
  | cases _ scrutinee arms => cases default scrutinee.outline (outlineArms arms)

def outlineEach : List Expr → List Expr
  | [] => []
  | e :: rest => e.outline :: outlineEach rest

def outlineFields : List (FieldInit Expr) → List (FieldInit Expr)
  | [] => []
  | ⟨name, value, _⟩ :: rest => ⟨name, value.outline, default⟩ :: outlineFields rest

def outlineArms : List (MatchArm Expr) → List (MatchArm Expr)
  | [] => []
  | ⟨tag, binding, body, _⟩ :: rest => ⟨tag.bare, binding.bare, body.outline, default⟩ :: outlineArms rest

end

theorem outlineEach_eq_map (es : List Expr) : outlineEach merged es = es.map (outline merged) := by
  induction es with
  | nil => rfl
  | cons e rest ih => rw [outlineEach, ih, List.map_cons]

theorem outlineFields_eq_map (fields : List (FieldInit Expr)) : outlineFields merged fields =
    fields.map fun field => ⟨field.name, field.value.outline merged, default⟩ := by
  induction fields with
  | nil => rfl
  | cons field rest ih => rw [outlineFields, ih, List.map_cons]

theorem outlineArms_eq_map (arms : List (MatchArm Expr)) : outlineArms merged arms =
    arms.map fun arm => ⟨arm.tag.bare, arm.binding.bare, arm.body.outline merged, default⟩ := by
  induction arms with
  | nil => rfl
  | cons arm rest ih => rw [outlineArms, ih, List.map_cons]

end Expr

def Alternative.outline (a : Alternative) : Alternative := ⟨a.tag, a.payload.outline merged, default⟩

mutual

def Declaration.outline : Declaration → Declaration
  | .value _ name type value => .value default name.bare (type.map (TypeExpr.outline merged)) (value.outline merged)
  | .function _ name names ps result body =>
    .function default name.bare names.outline (TypeExpr.outlineParameters merged ps)
      (result.map (TypeExpr.outline merged)) body.outline
  | .external _ name names ps result =>
    .external default name.bare names.outline (TypeExpr.outlineParameters merged ps) (result.outline merged)
  | .alias _ name names target => .alias default name.bare names.outline (target.outline merged)
  | .union _ name names alternatives =>
    .union default name.bare names.outline (alternatives.map (Alternative.outline merged))

def Declaration.outlineEach : List Declaration → List Declaration
  | [] => []
  | d :: rest => d.outline :: Declaration.outlineEach rest

def Body.outline : Body → Body
  | .mk declarations result _ => .mk (Declaration.outlineEach declarations) (result.outline merged) default

end

/-! ## Outlines have the same dump -/

namespace Generics

@[simp] theorem names_outline (names : Generics) : names.outline.map (·.value) = names.map (·.value) := by
  rw [outline, List.map_map]
  rfl

theorem dump_outline (names : Generics) : names.outline.dump = names.dump := by
  rw [dump, dump, names_outline, outline, List.isEmpty_map]

end Generics

/-- The dump of what is told of an item is the same for its outline. -/
def Item.DumpKept : Item → Prop
  | token _ => True
  | type t => (t.outline merged).dump = t.dump
  | parameter p => (p.type.outline merged).dump = p.type.dump
  | expr e => (e.outline merged).dump = e.dump
  | field f => (f.value.outline merged).dump = f.value.dump
  | arm a => (a.body.outline merged).dump = a.body.dump
  | alternative a => (a.payload.outline merged).dump = a.payload.dump
  | declaration d => ∀ depth, (d.outline merged).dump depth = d.dump depth
  | body b => ∀ depth, (b.outline merged).dump depth = b.dump depth

open Item (DumpKept)

variable {merged}

namespace TypeExpr

theorem dump_outlineNamed (name : String) (arguments : List TypeExpr) :
    (outlineNamed merged name arguments).dump = (named default name arguments).dump := by
  unfold outlineNamed
  split
  · split
    · rename_i hname
      obtain rfl := eq_of_beq (Bool.and_eq_true_iff.mp hname).2
      exact String.toList_injective (by simp [dump, dumpArguments])
    · rfl
  · rfl

theorem dump_outlineParameters {ps : ParameterList (Parameter TypeExpr)}
    (h : ∀ c ∈ Item.ofParameters ps, c.DumpKept merged) :
    dumpParameters (outlineParameters merged ps) = dumpParameters ps := by
  cases ps with
  | fixed ps =>
    rw [outlineParameters, dumpParameters, dumpParameters, dumpEach_eq_map, dumpEach_eq_map,
      outlineEachParameter_eq_map, List.map_map]
    congr 3
    refine List.map_congr_left fun p hp => ?_
    have htype : (p.type.outline merged).dump = p.type.dump := h (.parameter p) (List.mem_map_of_mem hp)
    rw [Function.comp_apply, htype]
    rfl
  | variadic p =>
    have htype : (p.type.outline merged).dump = p.type.dump := h (.parameter p) (List.mem_singleton.mpr rfl)
    rw [outlineParameters, dumpParameters, htype]
    rfl

theorem dump_outline? {type : Option TypeExpr} (h : ∀ c ∈ Item.ofType? type, c.DumpKept merged) :
    dumpAnnotation (type.map (outline merged)) = dumpAnnotation type := by
  cases type with
  | none => rfl
  | some type =>
    have htype : (type.outline merged).dump = type.dump := h (.type type) (List.mem_singleton.mpr rfl)
    rw [Option.map_some, dumpAnnotation, htype, dumpAnnotation]

theorem dump_outline {t : TypeExpr} (h : ∀ c ∈ t.items, c.DumpKept merged) : (t.outline merged).dump = t.dump := by
  cases t with
  | named site name arguments =>
    have heach : arguments.map (fun a => " " ++ (a.outline merged).dump) = arguments.map fun a => " " ++ a.dump :=
      List.map_congr_left fun a ha => congrArg (" " ++ ·) (h (.type a) (List.mem_map_of_mem ha))
    rw [outline, dump_outlineNamed, dump, dump, outlineEach_eq_map, dumpArguments_eq_join, dumpArguments_eq_join,
      List.isEmpty_map, List.map_map, Function.comp_def, heach]
  | object site fields =>
    have heach : fields.map (fun f => ":" ++ f.1 ++ " " ++ (f.2.outline merged).dump) =
        fields.map fun f => ":" ++ f.1 ++ " " ++ f.2.dump :=
      List.map_congr_left fun f hf =>
        congrArg (":" ++ f.1 ++ " " ++ ·) (h (.type f.2) (List.mem_map.mpr ⟨f, hf, rfl⟩))
    rw [outline, dump, dump, outlineFields_eq_map, dumpFields_eq_map, dumpFields_eq_map, List.map_map,
      Function.comp_def, heach]
  | function site names ps result =>
    simp only [items, List.forall_mem_append, List.forall_mem_cons] at h
    obtain ⟨⟨-, hps⟩, hresult, -⟩ := h
    have hresult : (result.outline merged).dump = result.dump := hresult
    rw [outline, dump, dump, Generics.dump_outline, dump_outlineParameters hps, hresult]
  | nullable site inner =>
    have hinner : (inner.outline merged).dump = inner.dump := h (.type inner) (List.mem_singleton.mpr rfl)
    rw [outline, dump, dump, hinner]

end TypeExpr

namespace Expr

theorem dump_outlineNumber (x : Float) : (outlineNumber merged x).dump = numberText .source x := by
  unfold outlineNumber
  split <;> rfl

example : numberText .source (.ofScientific (10 ^ 309) true 0) = "inf" := by decide +kernel

theorem dump_outlineCall (callee : Expr) (types : List TypeExpr) (arguments : List Expr) :
    (outlineCall merged callee types arguments).dump = (call default callee types arguments).dump := by
  unfold outlineCall
  split
  · split
    · rename_i hname
      obtain rfl := eq_of_beq (Bool.and_eq_true_iff.mp hname).2
      exact String.toList_injective (by simp [dump, dumpArguments])
    · rfl
  · rfl

theorem dump_outline {e : Expr} (h : ∀ c ∈ e.items, c.DumpKept merged) : (e.outline merged).dump = e.dump := by
  have hpart (part : Expr) (hmem : .expr part ∈ e.items) : (part.outline merged).dump = part.dump :=
    h (.expr part) hmem
  cases e with
  | number site x => exact dump_outlineNumber x
  | bigInteger | boolean | null | reference => rfl
  | object site fields =>
    have heach : fields.map (fun f => ":" ++ f.name ++ " " ++ (f.value.outline merged).dump) =
        fields.map fun f => ":" ++ f.name ++ " " ++ f.value.dump :=
      List.map_congr_left fun f hf => congrArg (":" ++ f.name ++ " " ++ ·) (h (.field f) (List.mem_map_of_mem hf))
    rw [outline, dump, dump, outlineFields_eq_map, dumpFields_eq_map, dumpFields_eq_map, List.map_map,
      Function.comp_def, heach]
  | binary site op lhs rhs =>
    rw [outline, dump, dump, hpart lhs (by simp [items]), hpart rhs (by simp [items])]
  | unary site op operand => rw [outline, dump, dump, hpart operand (by simp [items])]
  | conditional site condition thenBranch elseBranch =>
    rw [outline, dump, dump, hpart condition (by simp [items]), hpart thenBranch (by simp [items]),
      hpart elseBranch (by simp [items])]
  | call site callee types arguments =>
    have htypes : types.map (fun t => (t.outline merged).dump) = types.map TypeExpr.dump :=
      List.map_congr_left fun t ht => h (.type t) (by simp [items, ht])
    have heach : arguments.map (fun a => " " ++ (a.outline merged).dump) = arguments.map fun a => " " ++ a.dump :=
      List.map_congr_left fun a ha => congrArg (" " ++ ·) (hpart a (by simp [items, ha]))
    rw [outline, dump_outlineCall, dump, dump, hpart callee (by simp [items]), outlineEach_eq_map,
      dumpArguments_eq_join, dumpArguments_eq_join, List.isEmpty_map, List.map_map, List.map_map, Function.comp_def,
      Function.comp_def, htypes, heach]
  | lambda site names ps result body =>
    simp only [items, List.forall_mem_append, List.forall_mem_cons] at h
    obtain ⟨⟨⟨-, hps⟩, hresult⟩, hbody, -⟩ := h
    have hbody : (body.outline merged).dump = body.dump := hbody
    rw [outline, dump, dump, Generics.dump_outline, TypeExpr.dump_outlineParameters hps, TypeExpr.dump_outline? hresult,
      hbody]
  | field site owner name => rw [outline, dump, dump, hpart owner (by simp [items])]
  | tagged site value tag => rw [outline, dump, dump, hpart value (by simp [items])]
  | hasTag site value tag => rw [outline, dump, dump, hpart value (by simp [items])]
  | untag site value => rw [outline, dump, dump, hpart value (by simp [items])]
  | cases site scrutinee arms =>
    have heach : arms.map (fun arm =>
          " (" ++ arm.tag.value ++ " " ++ arm.binding.value ++ " " ++ (arm.body.outline merged).dump ++ ")") =
        arms.map fun arm => " (" ++ arm.tag.value ++ " " ++ arm.binding.value ++ " " ++ arm.body.dump ++ ")" :=
      List.map_congr_left fun arm harm =>
        congrArg (" (" ++ arm.tag.value ++ " " ++ arm.binding.value ++ " " ++ · ++ ")")
          (h (.arm arm) (by simp [items, harm]))
    rw [outline, dump, dump, hpart scrutinee (by simp [items]), outlineArms_eq_map, dumpArms_eq_join,
      dumpArms_eq_join, List.map_map, Function.comp_def, ← heach]
    rfl

end Expr

theorem Alternative.dumpAll_outline {alternatives : List Alternative}
    (h : ∀ a ∈ alternatives, (a.payload.outline merged).dump = a.payload.dump) :
    dumpAll (alternatives.map (outline merged)) = dumpAll alternatives := by
  rw [dumpAll, dumpAll, List.map_map]
  refine congrArg String.join (List.map_congr_left fun a ha => ?_)
  rw [Function.comp_apply, outline, h a ha]

namespace Declaration

theorem dump_outline {d : Declaration} (h : ∀ c ∈ d.items, c.DumpKept merged) (depth : Nat) :
    (d.outline merged).dump depth = d.dump depth := by
  cases d with
  | value span name type value =>
    simp only [items, List.forall_mem_append, List.forall_mem_cons] at h
    obtain ⟨⟨-, htype⟩, hvalue, -⟩ := h
    have hvalue : (value.outline merged).dump = value.dump := hvalue
    rw [outline, dump, dump, TypeExpr.dump_outline? htype, hvalue]
    rfl
  | function span name names ps result body =>
    simp only [items, List.forall_mem_append, List.forall_mem_cons] at h
    obtain ⟨⟨⟨⟨-, -⟩, hps⟩, hresult⟩, hbody, -⟩ := h
    have hbody : (body.outline merged).dump (depth + 1) = body.dump (depth + 1) := hbody (depth + 1)
    rw [outline, dump, dump, Generics.dump_outline, TypeExpr.dump_outlineParameters hps, TypeExpr.dump_outline? hresult,
      hbody]
    rfl
  | external span name names ps result =>
    simp only [items, List.forall_mem_append, List.forall_mem_cons] at h
    obtain ⟨⟨⟨-, -⟩, hps⟩, hresult, -⟩ := h
    have hresult : (result.outline merged).dump = result.dump := hresult
    rw [outline, dump, dump, Generics.dump_outline, TypeExpr.dump_outlineParameters hps, hresult]
    rfl
  | «alias» span name names target =>
    simp only [items, List.forall_mem_append, List.forall_mem_cons] at h
    have htarget : (target.outline merged).dump = target.dump := h.2.1
    rw [outline, dump, dump, Generics.dump_outline, htarget]
    rfl
  | union span name names alternatives =>
    have halternatives : Alternative.dumpAll (alternatives.map (Alternative.outline merged)) =
        Alternative.dumpAll alternatives :=
      Alternative.dumpAll_outline fun a ha => h (.alternative a) (by simp [items, ha])
    rw [outline, dump, dump, Generics.dump_outline, halternatives]
    rfl

theorem dumpAll_outlineEach {ds : List Declaration} (h : ∀ d ∈ ds, (Item.declaration d).DumpKept merged) (depth : Nat) :
    dumpAll depth (outlineEach merged ds) = dumpAll depth ds := by
  induction ds with
  | nil => rfl
  | cons d rest ih =>
    obtain ⟨hd, hrest⟩ := List.forall_mem_cons.mp h
    rw [outlineEach, dumpAll, dumpAll, hd depth, ih hrest]

end Declaration

theorem Item.dumpKept (i : Item) : i.DumpKept merged := by
  induction i using Item.parts_induction with
  | step i ih =>
    cases i with
    | token span => trivial
    | type t => exact TypeExpr.dump_outline ih
    | parameter p => exact ih (.type p.type) (by simp [children])
    | expr e => exact Expr.dump_outline ih
    | field f => exact ih (.expr f.value) (by simp [children])
    | arm a => exact ih (.expr a.body) (by simp [children])
    | alternative a => exact ih (.type a.payload) (by simp [children])
    | declaration d => exact Declaration.dump_outline ih
    | body b =>
      intro depth
      obtain ⟨declarations, result, span⟩ := b
      have hresult : (result.outline merged).dump = result.dump :=
        ih (.expr result) (by simp [children, Body.items, Body.result])
      have hdeclarations : Declaration.dumpAll depth (Declaration.outlineEach merged declarations) =
          Declaration.dumpAll depth declarations :=
        Declaration.dumpAll_outlineEach
          (fun d hd => ih (.declaration d) (by simp [children, Body.items, Body.declarations, hd])) depth
      rw [Body.outline, Body.dump, Body.dump, hdeclarations, hresult]

/-- The dump of a body tells no more than its outline does. -/
theorem Body.dump_outline (b : Body) (depth : Nat) : (b.outline merged).dump depth = b.dump depth :=
  (Item.body b).dumpKept depth

end Sable
