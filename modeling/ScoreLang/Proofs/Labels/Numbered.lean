import ScoreLang.Proofs.Code.Expression
import ScoreLang.Proofs.Syntax.Program

/-!
# Where the Numbers of a Program Stand

The generator takes the number of a clause from the second node after that of the clause, and takes
a node for a number if its text begins like one. In the tree of a program it finds a number in both
cases: names and other words do not look like numbers, and a clause of a switch begins with a word
and a number. `Numbered` says so for labels in preorder.
-/

namespace ScoreLang

/-- A label is not that of a clause of a switch, and looks like a number only if it is one. -/
structure Label.Plain (label : Label) : Prop where
  ne_clause : label ≠ .rule .caseClause
  /-- It looks like a number only if it is one. -/
  number : label.beginsWith "NUM" = true → ∃ number : Numeral, label = .number number.digits

/-- Labels in preorder, where every clause of a switch begins with a word and a number. -/
inductive Numbered : List Label → Prop where
  | nil : Numbered []
  | cons {label : Label} {labels : List Label} : label.Plain → Numbered labels →
      Numbered (label :: labels)
  | clause {word : Label} {number : Numeral} {labels : List Label} : word.Plain → Numbered labels →
      Numbered (.rule .caseClause :: word :: .number number.digits :: labels)

/-! ### Labels -/

namespace Label.Plain

theorem numeral (number : Numeral) : (Label.number number.digits).Plain :=
  ⟨by simp, fun _ => ⟨number, rfl⟩⟩

theorem rule {form : Rule} (h : form ≠ .caseClause) : (Label.rule form).Plain := by
  refine ⟨by simpa using h, fun hnumber => ?_⟩
  cases form <;> exact absurd hnumber (by decide)

theorem name (text : String) : (Label.name text).Plain := by
  refine ⟨by simp, fun hnumber => ?_⟩
  simp only [beginsWith, Label.text, nameMark, String.toList_append] at hnumber
  exact absurd hnumber (by simp [List.isPrefixOf])

theorem word {text : String} (h : (Label.word text).beginsWith "NUM" = false) :
    (Label.word text).Plain :=
  ⟨by simp, fun hnumber => by simp [h] at hnumber⟩

/-- A spelling of a word looks like a number only if the word does. -/
theorem spelling {text : String} (keyword : Spelling text)
    (h : (Label.word text).beginsWith "num" = false) : (Label.word keyword.text).Plain := by
  refine word (Bool.eq_false_iff.2 fun hnumber => ?_)
  have hlower : "num".toList.isPrefixOf (keyword.text.toList.map Char.toLower) = true := by
    have hmap := (List.isPrefixOf_iff_prefix.1 hnumber).map Char.toLower
    exact List.isPrefixOf_iff_prefix.2 hmap
  rw [← keyword.lowerCase_text] at h
  simp only [beginsWith, Label.text, lowerCase, String.toList_ofList] at h
  exact Bool.false_ne_true (h.symm.trans hlower)

end Label.Plain

namespace Numbered

variable {label : Label} {labels first second : List Label}

/-- What follows a label is numbered, too. -/
theorem tail (h : Numbered (label :: labels)) : Numbered labels := by
  cases h with
  | cons _ hlabels => exact hlabels
  | clause hword hlabels => exact .cons hword (.cons (.numeral _) hlabels)

/-- What looks like a number is one. -/
theorem number (h : Numbered (label :: labels)) (hlabel : label.beginsWith "NUM" = true) :
    ∃ number : Numeral, label = .number number.digits := by
  cases h with
  | cons hplain _ => exact hplain.number hlabel
  | clause => exact absurd hlabel (by decide)

/-- Two parts that are numbered. -/
theorem append (h : Numbered first) (h' : Numbered second) : Numbered (first ++ second) := by
  induction h with
  | nil => exact h'
  | cons hlabel _ ih => exact .cons hlabel ih
  | clause hword _ ih => exact .clause hword ih

theorem flatMap {α : Type} {items : List α} {labels : α → List Label}
    (h : ∀ item ∈ items, Numbered (labels item)) : Numbered (items.flatMap labels) := by
  induction items with
  | nil => exact .nil
  | cons item items ih =>
    rw [List.flatMap_cons]
    exact (h item (by simp)).append (ih fun other hother => h other (by simp [hother]))

theorem rule {form : Rule} (hform : decide (form = .caseClause) = false) (h : Numbered labels) :
    Numbered (.rule form :: labels) := .cons (.rule (of_decide_eq_false hform)) h

theorem word {text : String} (htext : (Label.word text).beginsWith "NUM" = false)
    (h : Numbered labels) : Numbered (.word text :: labels) := .cons (.word htext) h

theorem spelling {text : String} (keyword : Spelling text)
    (htext : (Label.word text).beginsWith "num" = false) (h : Numbered labels) :
    Numbered (.word keyword.text :: labels) := .cons (.spelling keyword htext) h

theorem name (text : String) (h : Numbered labels) : Numbered (.name text :: labels) :=
  .cons (.name text) h

theorem numeral (number : Numeral) (h : Numbered labels) :
    Numbered (.number number.digits :: labels) := .cons (.numeral number) h

end Numbered

/-! ### Expressions -/

/-- A variable has no clause in it. -/
theorem Reference.numbered (target : Reference) : Numbered target.labels := by
  refine .rule rfl (.name _ ?_)
  cases target.index with
  | none => exact .nil
  | some index => exact .word rfl (.numeral index (.word rfl .nil))

namespace Expr

theorem numbered_labels {level : Level} {e : Expr level} (h : Numbered e.inside) :
    Numbered e.labels := .rule (by cases level <;> rfl) h

/-- The labels of an expression. -/
theorem numbered_inside {level : Level} (e : Expr level) : Numbered e.inside := by
  induction e with
  | number value =>
    rw [inside_number]
    exact .numeral value .nil
  | «variable» target =>
    rw [inside_variable]
    exact target.numbered
  | group inner ih =>
    rw [inside_group]
    exact .word rfl ((numbered_labels ih).append (.word rfl .nil))
  | plainCall name =>
    rw [inside_plainCall]
    exact .rule rfl (.word rfl (.name name (.word rfl (.word rfl .nil))))
  | call name given ih =>
    rw [inside_call]
    exact .rule rfl (.word rfl (.name name (.word rfl ((numbered_labels ih).append
      (.word rfl .nil)))))
  | factor only ih =>
    rw [inside_factor]
    exact numbered_labels ih
  | product only ih =>
    rw [inside_product]
    exact numbered_labels ih
  | sum only ih =>
    rw [inside_sum]
    exact numbered_labels ih
  | logical only ih =>
    rw [inside_logical]
    exact numbered_labels ih
  | argument only ih =>
    rw [inside_argument]
    exact numbered_labels ih
  | times left sign right ihLeft ihRight =>
    rw [inside_times]
    exact ihLeft.append (.word (by cases sign <;> rfl) (numbered_labels ihRight))
  | plus left sign right ihLeft ihRight =>
    rw [inside_plus]
    exact ihLeft.append (.word (by cases sign <;> rfl) (numbered_labels ihRight))
  | compare left sign right ihLeft ihRight =>
    rw [inside_compare]
    exact (numbered_labels ihLeft).append (.word (by cases sign <;> rfl)
      (numbered_labels ihRight))
  | assign target value ih =>
    rw [inside_assign]
    exact target.numbered.append (.word rfl (numbered_labels ih))
  | further before last ihBefore ihLast =>
    rw [inside_further]
    exact ihBefore.append (.word rfl (numbered_labels ihLast))

/-- Nor has an expression. -/
theorem numbered {level : Level} (e : Expr level) : Numbered e.labels :=
  numbered_labels e.numbered_inside

end Expr

/-! ### Statements -/

theorem Jump.numbered (keyword : Jump) {labels : List Label} (h : Numbered labels) :
    Numbered (.word keyword.text :: labels) := by
  cases keyword with
  | stop keyword => exact .spelling keyword rfl h
  | again keyword => exact .spelling keyword rfl h

namespace Numbered

/-- The head of a clause, with what follows it. -/
theorem caseClause (keyword : Spelling "case") (number : Numeral) {labels : List Label}
    (h : Numbered labels) : Numbered (.rule .caseClause :: .word keyword.text ::
      .number number.digits :: .word ":" :: .rule .statements :: labels) :=
  .clause (.spelling keyword rfl) (.word rfl (.rule rfl h))

end Numbered

/-- The labels of a statement. -/
theorem Stmt.numbered {part : Part} (s : Stmt part) : Numbered s.inside := by
  induction s with
  | empty =>
    rw [inside_empty]
    exact .rule rfl (.word rfl .nil)
  | expression value =>
    rw [inside_expression]
    exact .rule rfl (value.numbered.append (.word rfl .nil))
  | read keyword target =>
    rw [inside_read]
    exact .rule rfl (.spelling keyword rfl (target.numbered.append (.word rfl .nil)))
  | write keyword value =>
    rw [inside_write]
    exact .rule rfl (.spelling keyword rfl (value.numbered.append (.word rfl .nil)))
  | compound body ih =>
    rw [inside_compound]
    exact .rule rfl (.word rfl (.rule rfl (ih.append (.word rfl .nil))))
  | ifThen keyword test body ih =>
    rw [inside_ifThen]
    exact .rule rfl (.spelling keyword rfl (.word rfl (test.numbered.append (.word rfl
      (.rule rfl ih)))))
  | ifElse keyword test body otherwise ih ihOtherwise =>
    rw [inside_ifElse]
    exact .rule rfl (.spelling keyword rfl (.word rfl (test.numbered.append (.word rfl
      (.rule rfl (ih.append (.word rfl (.rule rfl ihOtherwise))))))))
  | «while» keyword test body ih =>
    rw [inside_while]
    exact .rule rfl (.spelling keyword rfl (.word rfl (test.numbered.append (.word rfl
      (.rule rfl ih)))))
  | doWhile body test ih =>
    rw [inside_doWhile]
    exact .rule rfl (.word rfl (.rule rfl (ih.append (.word rfl (.word rfl (test.numbered.append
      (.word rfl (.word rfl .nil))))))))
  | «for» keyword first test step body ih =>
    rw [inside_for]
    exact .rule rfl (.spelling keyword rfl (.word rfl (first.numbered.append (.word rfl
      (test.numbered.append (.word rfl (step.numbered.append (.word rfl (.rule rfl ih)))))))))
  | switch test keyword number body rest ihBody ihRest =>
    rw [inside_switch]
    exact .rule rfl (.word rfl (.word rfl (test.numbered.append (.word rfl (.word rfl
      (.caseClause keyword number (ihBody.append (ihRest.append (.word rfl .nil)))))))))
  | jump keyword =>
    rw [inside_jump]
    exact .rule rfl (keyword.numbered (.word rfl .nil))
  | «return» value =>
    rw [inside_return]
    exact .rule rfl (.word rfl (value.numbered.append (.word rfl .nil)))
  | done => exact .nil
  | next first rest ihFirst ihRest =>
    rw [inside_next]
    exact .rule rfl (ihFirst.append ihRest)
  | noClause => exact .nil
  | default keyword body ih =>
    rw [inside_default]
    exact .rule rfl (.spelling keyword rfl (.word rfl (.rule rfl ih)))
  | clause keyword number body rest ihBody ihRest =>
    rw [inside_clause]
    exact .caseClause keyword number (ihBody.append ihRest)

/-! ### Programs -/

theorem numbered_valueLabels (values : List (Expr .logical)) : Numbered (valueLabels values) :=
  .flatMap fun value _ => .word rfl value.numbered

/-- The labels without the first one, if there is one. -/
theorem Numbered.tail_of {labels : List Label} (h : Numbered labels) : Numbered labels.tail := by
  cases labels with
  | nil => exact .nil
  | cons label labels => exact h.tail

theorem Declarator.numbered (declarator : Declarator) : Numbered declarator.labels := by
  cases declarator with
  | plain name => exact .rule rfl (.name name .nil)
  | initial name value => exact .rule rfl (.name name (.word rfl value.numbered))
  | array name length => exact .rule rfl (.name name (.word rfl (.numeral length (.word rfl .nil))))
  | filled name length values =>
    exact .rule rfl (.name name (.word rfl (.numeral length (.word rfl (.word rfl (.rule rfl
      (.word rfl ((numbered_valueLabels values).tail_of.append (.word rfl .nil)))))))))

/-- Nor has a declaration. -/
theorem Declaration.numbered (declaration : Declaration) : Numbered declaration.labels := by
  have hrest : Numbered (declaratorLabels declaration.rest) :=
    .flatMap fun declarator _ => .word rfl declarator.numbered
  exact .rule rfl (.spelling declaration.keyword rfl (declaration.first.numbered.append
    (hrest.append (.word rfl .nil))))

theorem numbered_declarationsLabels (declarations : List Declaration) :
    Numbered (declarationsLabels declarations) :=
  .rule rfl (.flatMap fun declaration _ => declaration.numbered)

theorem Body.numbered (body : Body) : Numbered body.labels :=
  .rule rfl (.word rfl ((numbered_declarationsLabels body.declarations).append (.rule rfl
    (body.steps.numbered.append (.word rfl .nil)))))

/-- In a function, every clause has its number. -/
theorem Function.numbered (function : Function) : Numbered function.labels := by
  have hparameters : Numbered (parameterLabels function.parameters) :=
    .flatMap fun name _ => .word rfl (.rule rfl (.word rfl (.name name .nil)))
  exact .rule rfl (.spelling function.keyword rfl (.name function.name (.word rfl (.rule rfl
    (hparameters.tail_of.append (.word rfl function.body.numbered))))))

/-- **Where the numbers of a program stand.** -/
theorem Program.numbered (program : Program) : Numbered program.labels := by
  have hmain : Numbered program.mainLabels :=
    .rule rfl (.spelling program.keyword rfl (.word rfl (.word rfl program.body.numbered)))
  have hfunctions : Numbered (program.functions.flatMap Function.labels) :=
    .flatMap fun function _ => function.numbered
  rw [labels_eq]
  refine .rule rfl (.append ?_ (hfunctions.append hmain))
  split
  · exact .nil
  · exact numbered_declarationsLabels program.globals

end ScoreLang
