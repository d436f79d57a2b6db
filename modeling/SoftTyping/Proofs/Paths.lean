import SoftTyping.Proofs.Tree

/-!
# Paths through statements

A path through statements takes one of the branches of every conditional, or none where there is only one, and goes through
the body of every loop as often as it likes. `Passes` are the paths from the first statement behind the last, and `Reaches`
those from the first statement to the read of a variable; both give the targets of the assignments on the way, in order. A
return ends a path, or is passed like any other statement: `stops` says which.

Of a variable that is written at some targets, what counts is whether a path avoids all of these (`Avoids`, `AvoidsUpto`).
For each kind of statement this comes down to its parts: in particular no loop has to be entered more than once
(`avoidsUpto_loop`).
-/

namespace SoftTyping

/-- Statements that evaluate an expression and go on to the next statement. -/
def NodeKind.isSimple : NodeKind → Bool
  | .returnStmt | .echoStmt | .exprStmt => true
  | _ => false

/-- Statements that declare something. No code of the body in which they stand runs in them. -/
def NodeKind.isDeclaration : NodeKind → Bool
  | .namespaceDecl | .useDecl | .constantDecl | .classDecl | .functionDecl => true
  | _ => false

namespace Shape

/-- A variable is read at a node of an expression. -/
inductive Reads : Shape → NodeId → Prop where
  | here {id : NodeId} {children : List Shape} : Reads (.node id .variableRef children) id
  | inside {id x : NodeId} {kind : NodeKind} {child : Shape} {children : List Shape} :
    child ∈ children → Reads child x → Reads (.node id kind children) x

/-- A variable is read at a node of one of some expressions. -/
def ReadsAny (shapes : List Shape) (id : NodeId) : Prop := ∃ shape ∈ shapes, shape.Reads id

theorem Reads.has {shape : Shape} {x : NodeId} (h : shape.Reads x) : shape.Has x := by
  induction h with
  | here => exact .here
  | inside hcd _ ih => exact .inside hcd ih

theorem ReadsAny.hasAny {shapes : List Shape} {x : NodeId} (h : ReadsAny shapes x) : HasAny shapes x := by
  obtain ⟨shape, hsh, hx⟩ := h
  exact ⟨shape, hsh, hx.has⟩

/-- Statements whose assignments, conditionals and loops have the parts that they need. -/
inductive Structured : List Shape → Prop where
  | nil : Structured []
  | simple {id : NodeId} {kind : NodeKind} {children rest : List Shape} :
    kind.isSimple = true → Structured rest → Structured (.node id kind children :: rest)
  | declaration {id : NodeId} {kind : NodeKind} {children rest : List Shape} :
    kind.isDeclaration = true → Structured rest → Structured (.node id kind children :: rest)
  | assign {id : NodeId} {target value : Shape} {rest : List Shape} :
    Structured rest → Structured (.node id .assign [target, value] :: rest)
  | ifThen {id thenId : NodeId} {condition : Shape} {thens rest : List Shape} :
    condition.kind ≠ .block → Structured thens → Structured rest →
      Structured (.node id .ifStmt [condition, .node thenId .block thens] :: rest)
  | ifElse {id thenId elseId : NodeId} {condition : Shape} {thens elses rest : List Shape} :
    condition.kind ≠ .block → Structured thens → Structured elses → Structured rest →
      Structured (.node id .ifStmt [condition, .node thenId .block thens, .node elseId .block elses] :: rest)
  | loop {id bodyId : NodeId} {condition : Shape} {body rest : List Shape} :
    condition.kind ≠ .block → Structured body → Structured rest →
      Structured (.node id .whileStmt [condition, .node bodyId .block body] :: rest)

/-- The paths from the first of some statements behind the last, with the targets that are written on the way. -/
inductive Passes (stops : Bool) : List Shape → List NodeId → Prop where
  | nil : Passes stops [] []
  | simple {id : NodeId} {kind : NodeKind} {children rest : List Shape} {written : List NodeId} :
    kind.isSimple = true → (stops = true → kind ≠ .returnStmt) → Passes stops rest written →
      Passes stops (.node id kind children :: rest) written
  | declaration {id : NodeId} {kind : NodeKind} {children rest : List Shape} {written : List NodeId} :
    kind.isDeclaration = true → Passes stops rest written → Passes stops (.node id kind children :: rest) written
  | assign {id : NodeId} {target value : Shape} {rest : List Shape} {written : List NodeId} :
    Passes stops rest written → Passes stops (.node id .assign [target, value] :: rest) (target.id :: written)
  | thenBranch {id thenId : NodeId} {condition : Shape} {thens others rest : List Shape} {inner written : List NodeId} :
    Passes stops thens inner → Passes stops rest written →
      Passes stops (.node id .ifStmt (condition :: .node thenId .block thens :: others) :: rest) (inner ++ written)
  | elseBranch {id elseId : NodeId} {condition thenBlock : Shape} {elses rest : List Shape} {inner written : List NodeId} :
    Passes stops elses inner → Passes stops rest written →
      Passes stops (.node id .ifStmt [condition, thenBlock, .node elseId .block elses] :: rest) (inner ++ written)
  | noBranch {id : NodeId} {condition thenBlock : Shape} {rest : List Shape} {written : List NodeId} :
    Passes stops rest written → Passes stops (.node id .ifStmt [condition, thenBlock] :: rest) written
  | leave {id : NodeId} {condition block : Shape} {rest : List Shape} {written : List NodeId} :
    Passes stops rest written → Passes stops (.node id .whileStmt [condition, block] :: rest) written
  | again {id bodyId : NodeId} {condition : Shape} {body rest : List Shape} {inner written : List NodeId} :
    Passes stops body inner → Passes stops (.node id .whileStmt [condition, .node bodyId .block body] :: rest) written →
      Passes stops (.node id .whileStmt [condition, .node bodyId .block body] :: rest) (inner ++ written)

/-- The paths from the first of some statements to the read of a variable, with the targets that are written on the way. -/
inductive Reaches (stops : Bool) : List Shape → NodeId → List NodeId → Prop where
  | past {first : Shape} {rest : List Shape} {x : NodeId} {before written : List NodeId} :
    Passes stops [first] before → Reaches stops rest x written → Reaches stops (first :: rest) x (before ++ written)
  | simple {id x : NodeId} {kind : NodeKind} {children rest : List Shape} :
    kind.isSimple = true → ReadsAny children x → Reaches stops (.node id kind children :: rest) x []
  | value {id x : NodeId} {target value : Shape} {rest : List Shape} :
    value.Reads x → Reaches stops (.node id .assign [target, value] :: rest) x []
  | condition {id x : NodeId} {condition : Shape} {blocks rest : List Shape} :
    condition.Reads x → Reaches stops (.node id .ifStmt (condition :: blocks) :: rest) x []
  | thenBranch {id thenId x : NodeId} {condition : Shape} {thens others rest : List Shape} {written : List NodeId} :
    Reaches stops thens x written →
      Reaches stops (.node id .ifStmt (condition :: .node thenId .block thens :: others) :: rest) x written
  | elseBranch {id elseId x : NodeId} {condition thenBlock : Shape} {elses rest : List Shape} {written : List NodeId} :
    Reaches stops elses x written →
      Reaches stops (.node id .ifStmt [condition, thenBlock, .node elseId .block elses] :: rest) x written
  | loopCondition {id x : NodeId} {condition block : Shape} {rest : List Shape} :
    condition.Reads x → Reaches stops (.node id .whileStmt [condition, block] :: rest) x []
  | loopBody {id bodyId x : NodeId} {condition : Shape} {body rest : List Shape} {written : List NodeId} :
    Reaches stops body x written →
      Reaches stops (.node id .whileStmt [condition, .node bodyId .block body] :: rest) x written
  | again {id bodyId x : NodeId} {condition : Shape} {body rest : List Shape} {inner written : List NodeId} :
    Passes stops body inner →
      Reaches stops (.node id .whileStmt [condition, .node bodyId .block body] :: rest) x written →
      Reaches stops (.node id .whileStmt [condition, .node bodyId .block body] :: rest) x (inner ++ written)

/-- A variable is read at a node of some statements, or of those in their branches. -/
inductive ReadsIn : List Shape → NodeId → Prop where
  | simple {id x : NodeId} {kind : NodeKind} {children rest : List Shape} :
    kind.isSimple = true → ReadsAny children x → ReadsIn (.node id kind children :: rest) x
  | value {id x : NodeId} {target value : Shape} {rest : List Shape} :
    value.Reads x → ReadsIn (.node id .assign [target, value] :: rest) x
  | condition {id x : NodeId} {kind : NodeKind} {condition : Shape} {blocks rest : List Shape} :
    kind = .ifStmt ∨ kind = .whileStmt → condition.Reads x → ReadsIn (.node id kind (condition :: blocks) :: rest) x
  | block {id blockId x : NodeId} {kind : NodeKind} {condition : Shape} {blocks body rest : List Shape} :
    kind = .ifStmt ∨ kind = .whileStmt → .node blockId .block body ∈ blocks → ReadsIn body x →
      ReadsIn (.node id kind (condition :: blocks) :: rest) x
  | later {first : Shape} {rest : List Shape} {x : NodeId} : ReadsIn rest x → ReadsIn (first :: rest) x

/-- The targets of the assignments among some statements. -/
inductive Target : List Shape → NodeId → Prop where
  | assign {id : NodeId} {target value : Shape} {rest : List Shape} :
    Target (.node id .assign [target, value] :: rest) target.id
  | block {id blockId x : NodeId} {kind : NodeKind} {condition : Shape} {blocks body rest : List Shape} :
    kind = .ifStmt ∨ kind = .whileStmt → .node blockId .block body ∈ blocks → Target body x →
      Target (.node id kind (condition :: blocks) :: rest) x
  | later {first : Shape} {rest : List Shape} {x : NodeId} : Target rest x → Target (first :: rest) x

variable {stops : Bool} {first condition : Shape} {shapes rest blocks body : List Shape} {written : List NodeId}
  {x id blockId : NodeId} {kind : NodeKind}

/-! ## Paths as a whole -/

theorem Passes.unstopped (h : Passes stops shapes written) : Passes false shapes written := by
  induction h with
  | nil => exact .nil
  | simple hk _ _ ih => exact .simple hk nofun ih
  | declaration hk _ ih => exact .declaration hk ih
  | assign _ ih => exact .assign ih
  | thenBranch _ _ ih ih' => exact .thenBranch ih ih'
  | elseBranch _ _ ih ih' => exact .elseBranch ih ih'
  | noBranch _ ih => exact .noBranch ih
  | leave _ ih => exact .leave ih
  | again _ _ ih ih' => exact .again ih ih'

theorem Reaches.unstopped (h : Reaches stops shapes x written) : Reaches false shapes x written := by
  induction h with
  | past hps _ ih => exact .past hps.unstopped ih
  | simple hk hre => exact .simple hk hre
  | value hre => exact .value hre
  | condition hre => exact .condition hre
  | thenBranch _ ih => exact .thenBranch ih
  | elseBranch _ ih => exact .elseBranch ih
  | loopCondition hre => exact .loopCondition hre
  | loopBody _ ih => exact .loopBody ih
  | again hps _ ih => exact .again hps.unstopped ih

theorem Passes.target (h : Passes stops shapes written) : ∀ target ∈ written, Target shapes target := by
  induction h with
  | nil => exact nofun
  | simple _ _ _ ih | declaration _ _ ih | noBranch _ ih | leave _ ih => exact fun target ht => .later (ih target ht)
  | assign _ ih => exact List.forall_mem_cons.mpr ⟨.assign, fun target ht => .later (ih target ht)⟩
  | thenBranch _ _ ih ih' =>
    exact List.forall_mem_append.mpr ⟨fun target ht => .block (.inl rfl) List.mem_cons_self (ih target ht),
      fun target ht => .later (ih' target ht)⟩
  | elseBranch _ _ ih ih' =>
    exact List.forall_mem_append.mpr
      ⟨fun target ht => .block (.inl rfl) (List.mem_cons_of_mem _ List.mem_cons_self) (ih target ht),
        fun target ht => .later (ih' target ht)⟩
  | again _ _ ih ih' =>
    exact List.forall_mem_append.mpr ⟨fun target ht => .block (.inr rfl) List.mem_cons_self (ih target ht), ih'⟩

theorem Target.of_first (h : Target [first] x) (rest : List Shape) : Target (first :: rest) x := by
  cases h with
  | assign => exact .assign
  | block hk hbl ht => exact .block hk hbl ht
  | later hno => nomatch hno

theorem Reaches.target (h : Reaches stops shapes x written) : ∀ target ∈ written, Target shapes target := by
  induction h with
  | past hps _ ih =>
    exact List.forall_mem_append.mpr ⟨fun target ht => (hps.target target ht).of_first _, fun target ht =>
      .later (ih target ht)⟩
  | simple _ _ | value _ | condition _ | loopCondition _ => exact nofun
  | thenBranch _ ih => exact fun target ht => .block (.inl rfl) List.mem_cons_self (ih target ht)
  | loopBody _ ih => exact fun target ht => .block (.inr rfl) List.mem_cons_self (ih target ht)
  | elseBranch _ ih =>
    exact fun target ht => .block (.inl rfl) (List.mem_cons_of_mem _ List.mem_cons_self) (ih target ht)
  | again hps _ ih =>
    exact List.forall_mem_append.mpr ⟨fun target ht => .block (.inr rfl) List.mem_cons_self (hps.target target ht), ih⟩

theorem Target.hasAny (h : Target shapes x) : HasAny shapes x := by
  induction h with
  | @assign _ target _ _ => exact hasAny_cons.mpr (.inl (.inside List.mem_cons_self target.has_id))
  | block _ hbl _ ih =>
    exact hasAny_cons.mpr (.inl (.inside (List.mem_cons_of_mem _ hbl) (has_node.mpr (.inr ih))))
  | later _ ih => exact hasAny_cons.mpr (.inr ih)

theorem Target.of_conditional
    (hk : kind = .ifStmt ∨ kind = .whileStmt) (h : Target [.node id kind (condition :: blocks)] x) :
    ∃ blockId body, .node blockId .block body ∈ blocks ∧ Target body x := by
  generalize hshs : [Shape.node id kind (condition :: blocks)] = shapes at h
  cases h with
  | assign =>
    cases hshs
    rcases hk with h | h <;> nomatch h
  | block _ hbl ht =>
    cases hshs
    exact ⟨_, _, hbl, ht⟩
  | later hno =>
    cases hshs
    nomatch hno

theorem Reaches.hasAny (h : Reaches stops shapes x written) : HasAny shapes x := by
  induction h with
  | past _ _ ih => exact hasAny_cons.mpr (.inr ih)
  | simple _ hre => exact hasAny_cons.mpr (.inl (has_node.mpr (.inr hre.hasAny)))
  | value hre => exact hasAny_cons.mpr (.inl (.inside (List.mem_cons_of_mem _ List.mem_cons_self) hre.has))
  | condition hre | loopCondition hre => exact hasAny_cons.mpr (.inl (.inside List.mem_cons_self hre.has))
  | thenBranch _ ih | loopBody _ ih =>
    exact hasAny_cons.mpr (.inl (.inside (List.mem_cons_of_mem _ List.mem_cons_self) (has_node.mpr (.inr ih))))
  | elseBranch _ ih =>
    refine hasAny_cons.mpr (.inl (.inside (List.mem_cons_of_mem _ (List.mem_cons_of_mem _ List.mem_cons_self)) ?_))
    exact has_node.mpr (.inr ih)
  | again _ _ ih => exact ih

theorem ReadsIn.hasAny (h : ReadsIn shapes x) : HasAny shapes x := by
  induction h with
  | simple _ hre => exact hasAny_cons.mpr (.inl (has_node.mpr (.inr hre.hasAny)))
  | value hre => exact hasAny_cons.mpr (.inl (.inside (List.mem_cons_of_mem _ List.mem_cons_self) hre.has))
  | condition _ hre => exact hasAny_cons.mpr (.inl (.inside List.mem_cons_self hre.has))
  | block _ hbl _ ih => exact hasAny_cons.mpr (.inl (.inside (List.mem_cons_of_mem _ hbl) (has_node.mpr (.inr ih))))
  | later _ ih => exact hasAny_cons.mpr (.inr ih)

theorem Passes.append {others : List Shape} {after : List NodeId} (h : Passes stops shapes written)
    (h' : Passes stops others after) : Passes stops (shapes ++ others) (written ++ after) := by
  induction h with
  | nil => exact h'
  | simple hk hret _ ih => exact .simple hk hret ih
  | declaration hk _ ih => exact .declaration hk ih
  | assign _ ih => exact .assign ih
  | thenBranch hth _ _ ih =>
    rw [List.append_assoc]
    exact .thenBranch hth ih
  | elseBranch helses _ _ ih =>
    rw [List.append_assoc]
    exact .elseBranch helses ih
  | noBranch _ ih => exact .noBranch ih
  | leave _ ih => exact .leave ih
  | again hbdy _ _ ih =>
    rw [List.append_assoc]
    exact .again hbdy ih

theorem Passes.split (h : Passes stops (first :: rest) written) :
    ∃ before after, Passes stops [first] before ∧ Passes stops rest after ∧ written = before ++ after := by
  generalize hshs : first :: rest = shapes at h
  induction h with
  | nil => nomatch hshs
  | simple hk hret hrs _ =>
    cases hshs
    exact ⟨[], _, .simple hk hret .nil, hrs, rfl⟩
  | declaration hk hrs _ =>
    cases hshs
    exact ⟨[], _, .declaration hk .nil, hrs, rfl⟩
  | assign hrs _ =>
    cases hshs
    exact ⟨_, _, .assign .nil, hrs, rfl⟩
  | thenBranch hth hrs _ _ =>
    cases hshs
    exact ⟨_, _, .thenBranch hth .nil, hrs, by rw [List.append_nil]⟩
  | elseBranch helses hrs _ _ =>
    cases hshs
    exact ⟨_, _, .elseBranch helses .nil, hrs, by rw [List.append_nil]⟩
  | noBranch hrs _ =>
    cases hshs
    exact ⟨[], _, .noBranch .nil, hrs, rfl⟩
  | leave hrs _ =>
    cases hshs
    exact ⟨[], _, .leave .nil, hrs, rfl⟩
  | again hbdy _ _ ih =>
    cases hshs
    obtain ⟨before, after, hfst, hrs, rfl⟩ := ih rfl
    exact ⟨_, after, .again hbdy hfst, hrs, (List.append_assoc _ _ _).symm⟩

theorem Reaches.split (h : Reaches stops (first :: rest) x written) :
    Reaches stops [first] x written ∨
      ∃ before after, Passes stops [first] before ∧ Reaches stops rest x after ∧ written = before ++ after := by
  generalize hshs : first :: rest = shapes at h
  induction h with
  | past hps hrs _ =>
    cases hshs
    exact .inr ⟨_, _, hps, hrs, rfl⟩
  | simple hk hre =>
    cases hshs
    exact .inl (.simple hk hre)
  | value hre =>
    cases hshs
    exact .inl (.value hre)
  | condition hre =>
    cases hshs
    exact .inl (.condition hre)
  | thenBranch hth _ =>
    cases hshs
    exact .inl (.thenBranch hth)
  | elseBranch helses _ =>
    cases hshs
    exact .inl (.elseBranch helses)
  | loopCondition hre =>
    cases hshs
    exact .inl (.loopCondition hre)
  | loopBody hbdy _ =>
    cases hshs
    exact .inl (.loopBody hbdy)
  | again hbdy _ ih =>
    cases hshs
    rcases ih rfl with hloop | ⟨before, after, hfst, hrs, rfl⟩
    · exact .inl (.again hbdy hloop)
    · exact .inr ⟨_, after, .again hbdy hfst, hrs, (List.append_assoc _ _ _).symm⟩

theorem Reaches.append (others : List Shape) (h : Reaches stops shapes x written) :
    Reaches stops (shapes ++ others) x written := by
  induction h with
  | past hps _ ih => exact .past hps ih
  | simple hk hre => exact .simple hk hre
  | value hre => exact .value hre
  | condition hre => exact .condition hre
  | thenBranch hth _ => exact .thenBranch hth
  | elseBranch helses _ => exact .elseBranch helses
  | loopCondition hre => exact .loopCondition hre
  | loopBody hbdy _ => exact .loopBody hbdy
  | again hbdy _ ih => exact .again hbdy ih

theorem Structured.tail (h : Structured (first :: rest)) : Structured rest := by
  cases h <;> assumption

theorem Structured.head (h : Structured (first :: rest)) : Structured [first] := by
  cases h with
  | simple hk => exact .simple hk .nil
  | declaration hk => exact .declaration hk .nil
  | assign => exact .assign .nil
  | ifThen hcnd hth => exact .ifThen hcnd hth .nil
  | ifElse hcnd hth helses => exact .ifElse hcnd hth helses .nil
  | loop hcnd hbdy => exact .loop hcnd hbdy .nil

/-- The parts of a conditional or a loop. -/
theorem Structured.parts
    (h : Structured (.node id kind (condition :: blocks) :: rest)) (hk : kind = .ifStmt ∨ kind = .whileStmt) :
    condition.kind ≠ .block ∧
      ((∃ bodyId body, blocks = [.node bodyId .block body] ∧ Structured body) ∨
        kind = .ifStmt ∧ ∃ thenId thens elseId elses, blocks = [.node thenId .block thens, .node elseId .block elses] ∧
          Structured thens ∧ Structured elses) := by
  cases h with
  | simple hsimple => rcases hk with rfl | rfl <;> nomatch hsimple
  | declaration hdeclaration => rcases hk with rfl | rfl <;> nomatch hdeclaration
  | assign => rcases hk with hk | hk <;> nomatch hk
  | ifThen hcnd hinn | loop hcnd hinn => exact ⟨hcnd, .inl ⟨_, _, rfl, hinn⟩⟩
  | ifElse hcnd hth helses => exact ⟨hcnd, .inr ⟨rfl, _, _, _, _, rfl, hth, helses⟩⟩

theorem Structured.block
    (h : Structured (.node id kind (condition :: blocks) :: rest)) (hk : kind = .ifStmt ∨ kind = .whileStmt)
    (hbl : .node blockId .block body ∈ blocks) : Structured body := by
  obtain ⟨_, ⟨_, _, rfl, hinn⟩ | ⟨_, _, _, _, _, rfl, hth, helses⟩⟩ := h.parts hk
  · cases List.mem_singleton.mp hbl
    exact hinn
  · rcases List.mem_cons.mp hbl with hbl | hbl
    · cases hbl
      exact hth
    · cases List.mem_singleton.mp hbl
      exact helses

/-! ## Paths that avoid some targets -/

/-- Some path behind the statements writes none of some targets. -/
def Avoids (targets : NodeId → Prop) (shapes : List Shape) : Prop :=
  ∃ written, Passes false shapes written ∧ ∀ target ∈ written, ¬ targets target

/-- Some path to a read writes none of some targets. -/
def AvoidsUpto (targets : NodeId → Prop) (shapes : List Shape) (x : NodeId) : Prop :=
  ∃ written, Reaches false shapes x written ∧ ∀ target ∈ written, ¬ targets target

variable {targets targets' : NodeId → Prop} {id bodyId thenId elseId : NodeId} {kind : NodeKind}
  {condition target value : Shape} {children thens elses body : List Shape}

theorem avoids_congr (hsm : ∀ x, Target shapes x → (targets' x ↔ targets x)) :
    Avoids targets' shapes ↔ Avoids targets shapes := by
  refine exists_congr fun written => and_congr_right fun hps => forall₂_congr fun x hx => ?_
  rw [hsm x (hps.target x hx)]

theorem avoids_nil : Avoids targets [] := ⟨[], .nil, nofun⟩

theorem avoids_cons : Avoids targets (first :: rest) ↔ Avoids targets [first] ∧ Avoids targets rest := by
  constructor
  · rintro ⟨written, hps, havo⟩
    obtain ⟨before, after, hfst, hrs, rfl⟩ := hps.split
    obtain ⟨hbef, haf⟩ := List.forall_mem_append.mp havo
    exact ⟨⟨before, hfst, hbef⟩, after, hrs, haf⟩
  · rintro ⟨⟨before, hfst, hbef⟩, after, hrs, haf⟩
    exact ⟨before ++ after, hfst.append hrs, List.forall_mem_append.mpr ⟨hbef, haf⟩⟩

theorem avoids_simple (hk : kind.isSimple = true) : Avoids targets [.node id kind children] :=
  ⟨[], .simple hk nofun .nil, nofun⟩

theorem avoids_declaration (hk : kind.isDeclaration = true) : Avoids targets [.node id kind children] :=
  ⟨[], .declaration hk .nil, nofun⟩

theorem avoids_assign : Avoids targets [.node id .assign [target, value]] ↔ ¬ targets target.id := by
  constructor
  · rintro ⟨written, hps, havo⟩
    cases hps with
    | simple hk => nomatch hk
    | declaration hk => nomatch hk
    | assign hrs => exact havo _ List.mem_cons_self
  · exact fun hwrs => ⟨_, .assign .nil, List.forall_mem_singleton.mpr hwrs⟩

theorem avoids_ifThen : Avoids targets [.node id .ifStmt [condition, target]] := ⟨[], .noBranch .nil, nofun⟩

theorem avoids_ifElse :
    Avoids targets [.node id .ifStmt [condition, .node thenId .block thens, .node elseId .block elses]] ↔
      Avoids targets thens ∨ Avoids targets elses := by
  constructor
  · rintro ⟨written, hps, havo⟩
    cases hps with
    | simple hk => nomatch hk
    | declaration hk => nomatch hk
    | thenBranch hth => exact .inl ⟨_, hth, (List.forall_mem_append.mp havo).1⟩
    | elseBranch helses => exact .inr ⟨_, helses, (List.forall_mem_append.mp havo).1⟩
  · rintro (⟨written, hth, havo⟩ | ⟨written, helses, havo⟩)
    · exact ⟨written ++ [], .thenBranch hth .nil, by rwa [List.append_nil]⟩
    · exact ⟨written ++ [], .elseBranch helses .nil, by rwa [List.append_nil]⟩

theorem avoids_loop : Avoids targets [.node id .whileStmt [condition, target]] := ⟨[], .leave .nil, nofun⟩

theorem avoidsUpto_congr (hsm : ∀ x, Target shapes x → (targets' x ↔ targets x)) :
    AvoidsUpto targets' shapes x ↔ AvoidsUpto targets shapes x := by
  refine exists_congr fun written => and_congr_right fun hrcs => forall₂_congr fun target ht => ?_
  rw [hsm target (hrcs.target target ht)]

theorem AvoidsUpto.hasAny (h : AvoidsUpto targets shapes x) : HasAny shapes x := by
  obtain ⟨_, hrcs, _⟩ := h
  exact hrcs.hasAny

theorem avoidsUpto_cons : AvoidsUpto targets (first :: rest) x ↔
    AvoidsUpto targets [first] x ∨ (Avoids targets [first] ∧ AvoidsUpto targets rest x) := by
  constructor
  · rintro ⟨written, hrcs, havo⟩
    rcases hrcs.split with hfst | ⟨before, after, hps, hrs, rfl⟩
    · exact .inl ⟨written, hfst, havo⟩
    · obtain ⟨hbef, haf⟩ := List.forall_mem_append.mp havo
      exact .inr ⟨⟨before, hps, hbef⟩, after, hrs, haf⟩
  · rintro (⟨written, hfst, havo⟩ | ⟨⟨before, hps, hbef⟩, after, hrs, haf⟩)
    · exact ⟨written, hfst.append rest, havo⟩
    · exact ⟨before ++ after, .past hps hrs, List.forall_mem_append.mpr ⟨hbef, haf⟩⟩

theorem avoidsUpto_ifThen :
    AvoidsUpto targets [.node id .ifStmt [condition, .node thenId .block thens]] x ↔
      condition.Reads x ∨ AvoidsUpto targets thens x := by
  constructor
  · rintro ⟨written, hrcs, havo⟩
    cases hrcs with
    | past _ hrs => nomatch hrs
    | simple hk => nomatch hk
    | condition hre => exact .inl hre
    | thenBranch hth => exact .inr ⟨written, hth, havo⟩
  · rintro (hre | ⟨written, hth, havo⟩)
    · exact ⟨[], .condition hre, nofun⟩
    · exact ⟨written, .thenBranch hth, havo⟩

theorem avoidsUpto_ifElse :
    AvoidsUpto targets [.node id .ifStmt [condition, .node thenId .block thens, .node elseId .block elses]] x ↔
      condition.Reads x ∨ AvoidsUpto targets thens x ∨ AvoidsUpto targets elses x := by
  constructor
  · rintro ⟨written, hrcs, havo⟩
    cases hrcs with
    | past _ hrs => nomatch hrs
    | simple hk => nomatch hk
    | condition hre => exact .inl hre
    | thenBranch hth => exact .inr (.inl ⟨written, hth, havo⟩)
    | elseBranch helses => exact .inr (.inr ⟨written, helses, havo⟩)
  · rintro (hre | ⟨written, hth, havo⟩ | ⟨written, helses, havo⟩)
    · exact ⟨[], .condition hre, nofun⟩
    · exact ⟨written, .thenBranch hth, havo⟩
    · exact ⟨written, .elseBranch helses, havo⟩

/-- What is avoided when a loop has been gone through before is also avoided when it is entered for the first time. -/
theorem avoidsUpto_loop :
    AvoidsUpto targets [.node id .whileStmt [condition, .node bodyId .block body]] x ↔
      condition.Reads x ∨ AvoidsUpto targets body x := by
  constructor
  · rintro ⟨written, hrcs, havo⟩
    generalize hshs : [Shape.node id .whileStmt [condition, .node bodyId .block body]] = shapes at hrcs
    induction hrcs with
    | past _ hrs _ =>
      cases hshs
      nomatch hrs
    | simple hk =>
      cases hshs
      nomatch hk
    | loopCondition hre =>
      cases hshs
      exact .inl hre
    | loopBody hbdy _ =>
      cases hshs
      exact .inr ⟨_, hbdy, havo⟩
    | again _ _ ih =>
      cases hshs
      exact ih (List.forall_mem_append.mp havo).2 rfl
    | _ => nomatch hshs
  · rintro (hre | ⟨written, hbdy, havo⟩)
    · exact ⟨[], .loopCondition hre, nofun⟩
    · exact ⟨written, .loopBody hbdy, havo⟩

/-- A read in a block is reached without writing if it is so from the start of the block. -/
theorem avoidsUpto_block (hstr : Structured (.node id kind (condition :: blocks) :: rest))
    (hk : kind = .ifStmt ∨ kind = .whileStmt) (hbl : .node blockId .block body ∈ blocks)
    (hdis : Distinct (.node id kind (condition :: blocks) :: rest))
    (hx : HasAny body x) : AvoidsUpto targets (.node id kind (condition :: blocks) :: rest) x ↔ AvoidsUpto targets body x := by
  cases hdis with
  | cons _ hch hap _ => cases hch with
    | cons _ _ hcnd hbls =>
      have hin : HasAny blocks x := ⟨_, hbl, has_node.mpr (.inr hx)⟩
      have hno : ¬ Reads _ x := fun hre => hcnd x hre.has hin
      have hrs : ¬ HasAny rest x := hap x (has_node.mpr (.inr (hasAny_cons.mpr (.inr hin))))
      rw [avoidsUpto_cons, or_iff_left fun h => hrs h.2.hasAny]
      obtain ⟨_, ⟨_, _, rfl, _⟩ | ⟨rfl, thenId, thens, elseId, elses, rfl, _⟩⟩ := hstr.parts hk
      · cases List.mem_singleton.mp hbl
        rcases hk with rfl | rfl
        · rw [avoidsUpto_ifThen, or_iff_right hno]
        · rw [avoidsUpto_loop, or_iff_right hno]
      · rw [avoidsUpto_ifElse, or_iff_right hno]
        cases hbls with
        | cons _ _ hth _ =>
          have hone : HasAny thens x → ¬ HasAny elses x := fun ht he =>
            hth x (has_node.mpr (.inr ht)) ⟨_, List.mem_singleton_self _, has_node.mpr (.inr he)⟩
          rcases List.mem_cons.mp hbl with hbl | hbl
          · cases hbl
            exact or_iff_left fun h => hone hx h.hasAny
          · cases List.mem_singleton.mp hbl
            exact or_iff_right fun h => hone h.hasAny hx

end Shape

end SoftTyping
