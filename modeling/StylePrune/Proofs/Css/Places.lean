import StylePrune.Proofs.Css.Spans
import StylePrune.Css.Reader

/-!
Where components stand does not matter to what they write and to the selectors they make.
-/

set_option autoImplicit false

namespace StylePrune.Css

mutual
/-- A component as it would be in the first place, at every depth. -/
def Component.placeless : Component → Component
  | .leaf _ t => .leaf .first t
  | .block _ b cs => .block .first b (placelessAll cs)
  | .function _ name cs => .function .first name (placelessAll cs)

def placelessAll : List Component → List Component
  | [] => []
  | c :: cs => c.placeless :: placelessAll cs
end

theorem placelessAll_append (cs ds : List Component) :
    placelessAll (cs ++ ds) = placelessAll cs ++ placelessAll ds := by
  induction cs with
  | nil => rfl
  | cons c cs ih => simp [placelessAll, ih]

namespace Component

theorem kind_placeless (c : Component) : c.placeless.kind = c.kind := by
  cases c with
  | leaf p t => cases t <;> rfl
  | block p b cs => cases b <;> rfl
  | function p n cs => rfl

theorem isMark_placeless (s : Text) (c : Component) : c.placeless.isMark s = c.isMark s := by
  cases c with
  | leaf p t => cases t <;> rfl
  | block p b cs => rfl
  | function p n cs => rfl

theorem startsWithNewline_placeless (c : Component) : c.placeless.startsWithNewline = c.startsWithNewline := by
  cases c with
  | leaf p t =>
    unfold startsWithNewline
    split <;> split <;> simp_all [placeless]
  | block p b cs => rfl
  | function p n cs => rfl

theorem error?_placeless (c : Component) : c.placeless.error? = none ↔ c.error? = none := by
  cases c with
  | leaf p t => cases t <;> simp [placeless, error?]
  | block p b cs => simp [placeless, error?]
  | function p n cs => simp [placeless, error?]

end Component

theorem separator_placeless (c d : Component) : separator c.placeless d.placeless = separator c d := by
  simp only [separator, Component.kind_placeless, Component.isMark_placeless, Component.startsWithNewline_placeless]

mutual
theorem Component.endsInString_placeless (c : Component) : c.placeless.endsInString = c.endsInString := by
  cases c with
  | leaf p t => cases t with
    | error e => cases e <;> rfl
    | _ => rfl
  | block p b cs => rfl
  | function p n cs => exact lastEndsInString_placelessAll cs

theorem lastEndsInString_placelessAll (cs : List Component) :
    Component.endsInString.lastEndsInString (placelessAll cs) = Component.endsInString.lastEndsInString cs := by
  match cs with
  | [] => rfl
  | [c] => exact c.endsInString_placeless
  | _ :: c :: cs => exact lastEndsInString_placelessAll (c :: cs)
end

mutual
theorem Component.write_placeless (c : Component) : c.placeless.write = c.write := by
  cases c with
  | leaf p t => rfl
  | block p b cs =>
    have h := writeAll_placelessAll cs
    simp only [Component.placeless, Component.write, h]
  | function p n cs =>
    have h := writeAll_placelessAll cs
    have he := Component.endsInString_placeless (.function p n cs)
    simp only [Component.placeless] at he
    simp only [Component.placeless, Component.write, h, he]

theorem writeAll_placelessAll (cs : List Component) : writeAll (placelessAll cs) = writeAll cs := by
  cases cs with
  | nil => rfl
  | cons c cs =>
    have h := c.write_placeless
    have hs := writeAfter_placelessAll c cs
    simp only [placelessAll, writeAll, h, hs]

theorem writeAfter_placelessAll (c : Component) (cs : List Component) :
    writeAfter c.placeless (placelessAll cs) = writeAfter c cs := by
  cases cs with
  | nil => rfl
  | cons d cs =>
    have h := d.write_placeless
    have hs := writeAfter_placelessAll d cs
    simp only [placelessAll, writeAfter, separator_placeless, h, hs]
end

theorem splitAtCommas_placelessAll (cs : List Component) :
    splitAtCommas (placelessAll cs) = (splitAtCommas cs).map placelessAll := by
  induction cs with
  | nil => rfl
  | cons c cs ih =>
    simp only [placelessAll, splitAtCommas, Component.isMark_placeless, ih]
    by_cases hc : c.isMark "," = true
    · simp [hc, placelessAll]
    · cases splitAtCommas cs <;> simp [hc, placelessAll]

theorem selectorsOf_placelessAll (cs : List Component) : selectorsOf (placelessAll cs) = selectorsOf cs := by
  simp only [selectorsOf, splitAtCommas_placelessAll, List.map_map, Function.comp_def, writeAll_placelessAll]

theorem findSome?_error?_placelessAll (cs : List Component) :
    (placelessAll cs).findSome? Component.error? = none ↔ cs.findSome? Component.error? = none := by
  induction cs with
  | nil => rfl
  | cons c cs ih =>
    have hc := c.error?_placeless
    simp only [List.findSome?_eq_none_iff] at ih ⊢
    simp [placelessAll, hc, ih]

mutual
theorem Span.placelessAll_components (p q : Position) (s : Span) :
    placelessAll (s.components p) = placelessAll (s.components q) := by
  cases s with
  | leaf a t => rfl
  | cut a x => rfl
  | level o head cs c =>
    have h := placelessAll_componentsAll (p.past o) (q.past o) cs
    cases head <;> simp [Span.components, placelessAll, Level.component, Component.placeless, h]

/-- Spans make the same components in all places. -/
theorem placelessAll_componentsAll (p q : Position) (ss : List Span) :
    placelessAll (componentsAll p ss) = placelessAll (componentsAll q ss) := by
  cases ss with
  | nil => rfl
  | cons s ss =>
    have h := Span.placelessAll_components p q s
    have hs := placelessAll_componentsAll (p.past s.text) (q.past s.text) ss
    simp only [componentsAll, placelessAll_append, h, hs]
end

theorem selectorsOf_componentsAll (p q : Position) (ss : List Span) :
    selectorsOf (componentsAll p ss) = selectorsOf (componentsAll q ss) := by
  rw [← selectorsOf_placelessAll, placelessAll_componentsAll p q, selectorsOf_placelessAll]

theorem writeAll_componentsAll (p q : Position) (ss : List Span) :
    writeAll (componentsAll p ss) = writeAll (componentsAll q ss) := by
  rw [← writeAll_placelessAll, placelessAll_componentsAll p q, writeAll_placelessAll]

theorem findSome?_error?_componentsAll (p q : Position) {ss : List Span}
    (h : (componentsAll p ss).findSome? Component.error? = none) :
    (componentsAll q ss).findSome? Component.error? = none := by
  rwa [← findSome?_error?_placelessAll, placelessAll_componentsAll q p, findSome?_error?_placelessAll]

end StylePrune.Css
