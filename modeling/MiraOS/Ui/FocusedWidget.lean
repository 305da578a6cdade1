import MiraOS.Ui.WidgetHistories

/-! The widget of ui/ui.c that has the focus, and what is left of it when widgets are destroyed. -/

namespace MiraOS

open Machine

/-- The widgets, the one in focus or none, and whether the screen has to be drawn. -/
structure Desktop where
  widgets : Widgets
  focused : Nat
  dirty : Bool

/-- A call of a focus handler: the handler, the widget, and whether the focus comes or goes. -/
structure FocusCall where
  handler : Nat
  widget : Nat
  gained : Bool

/-- Read a widget; memory that is not in use is not read. -/
def readWidget (widgets : Widgets) (widget : Nat) : Except Halt UiWidget :=
  if widget ∈ widgets.live then .ok (widgets.heap widget) else .error .outOfBounds

/-- Tell a widget that the focus comes or goes, if there is one and it has a handler. -/
def tellFocus (widgets : Widgets) (widget : Nat) (gained : Bool) : Except Halt (List FocusCall) :=
  if widget = 0 then .ok []
  else do
    let stored ← readWidget widgets widget
    return if stored.onFocus ≠ 0 then [⟨stored.onFocus, widget, gained⟩] else []

/-- Move the focus, and return the calls of handlers. -/
def uiSetFocus (desktop : Desktop) (widget : Nat) : Except Halt (Desktop × List FocusCall) :=
  if desktop.focused = widget then .ok (desktop, [])
  else do
    let blurred ← tellFocus desktop.widgets desktop.focused false
    let gained ← tellFocus desktop.widgets widget true
    return ({ desktop with focused := widget, dirty := true }, blurred ++ gained)

/-- What can be done with widgets and the focus. -/
inductive DesktopAct where
  | change (act : WidgetAct)
  | setFocus (widget : Nat)

/-- What an act does when the code comes back from it. -/
def DesktopChange (desktop : Desktop) (act : DesktopAct) (after : Desktop) : Prop :=
  match act with
  | .change act => ∃ widgets, WidgetChange desktop.widgets act widgets ∧ after = { desktop with widgets := widgets }
  | .setFocus widget =>
    (widget = 0 ∨ widget ∈ desktop.widgets.live) ∧ ∃ calls, uiSetFocus desktop widget = .ok (after, calls)

/-- An act that destroys neither the widget in focus nor one above it. -/
def DesktopAct.Spares (desktop : Desktop) : DesktopAct → Prop
  | .change (.destroy widget) =>
    ∀ line, Visits (parentOf desktop.widgets.heap) desktop.focused line → widget ∉ line
  | _ => True

/-- The focus is at a widget in use or at none, among widgets that show a forest. -/
def Desktop.Sound (desktop : Desktop) (family : WidgetFamily) : Prop :=
  desktop.widgets.Mirrors family ∧ (desktop.focused = 0 ∨ desktop.focused ∈ desktop.widgets.live)

section

variable {desktop after : Desktop} {family : WidgetFamily} {widget : Nat}

/-- A widget can be told about the focus exactly when it is in use or there is none. -/
theorem tellFocus_iff {widgets : Widgets} {gained : Bool} :
    (∃ calls, tellFocus widgets widget gained = .ok calls) ↔ widget = 0 ∨ widget ∈ widgets.live := by
  rw [tellFocus]
  by_cases none : widget = 0
  · rw [if_pos none]
    exact iff_of_true ⟨[], rfl⟩ (.inl none)
  · rw [if_neg none, or_iff_right none, readWidget]
    by_cases member : widget ∈ widgets.live
    · rw [if_pos member]
      exact iff_of_true ⟨_, rfl⟩ member
    · -- The read stops, and so does the rest.
      rw [if_neg member]
      refine iff_of_false ?_ member
      rintro ⟨calls, ran⟩
      cases ran

/-- The focus can be moved to another widget exactly when both can be told. -/
theorem uiSetFocus_iff (other : desktop.focused ≠ widget) :
    (∃ result, uiSetFocus desktop widget = .ok result) ↔
      (desktop.focused = 0 ∨ desktop.focused ∈ desktop.widgets.live) ∧
        (widget = 0 ∨ widget ∈ desktop.widgets.live) := by
  -- The call tells the widget that loses the focus, then the one that gains it; each must be alive.
  rw [uiSetFocus, if_neg other, ← @tellFocus_iff _ _ false, ← @tellFocus_iff widget _ true]
  constructor
  · rintro ⟨result, ran⟩
    obtain ⟨blurred, first, ran⟩ := bind_eq_ok.mp ran
    obtain ⟨gained, second, -⟩ := bind_eq_ok.mp ran
    exact ⟨⟨blurred, first⟩, gained, second⟩
  · -- With both handlers served the focus field is all that is left to write.
    rintro ⟨⟨blurred, first⟩, gained, second⟩
    rw [first, second]
    exact ⟨_, rfl⟩

/-- The widgets on the way from a widget to the root are those that it is below. -/
theorem Shows.mem_line {heap : WidgetHeap} {live : List Nat} {kids : Nat → List Nat} (shows : Shows heap live kids 0)
    (rooted : Widgets.Rooted ⟨heap, live⟩) (member : widget ∈ live) {low : Nat} {line : List Nat}
    (linked : Visits (parentOf heap) low line) (inside : low ∈ live) : widget ∈ line ↔ Descends kids widget low := by
  obtain ⟨other, whole, lives⟩ := rooted.rooted low inside
  obtain rfl := linked.unique whole
  refine ⟨shows.below_line linked lives, fun below => ?_⟩
  clear whole lives
  induction below generalizing line with
  | here =>
    obtain ⟨rest, rfl, -⟩ := linked.cons_of_ne fun none => shows.real (none ▸ inside)
    exact List.mem_cons_self
  | @under node child above among ih =>
    -- The way from a child goes on from its parent.
    have high := (shows.family rooted).below member above
    obtain ⟨rest, rfl, behind⟩ := linked.cons_of_ne fun none => shows.real (none ▸ inside)
    rw [parentOf, ((shows.kid node high child).mp among).2.2] at behind
    exact List.mem_cons_of_mem _ (ih behind high)

/-- Destroying a widget leaves the focus at a widget in use exactly when it spares it. -/
theorem destroy_spares_iff (sound : desktop.Sound family) (member : widget ∈ desktop.widgets.live) {widgets : Widgets}
    (destroyed : WidgetChange desktop.widgets (.destroy widget) widgets) :
    (desktop.focused = 0 ∨ desktop.focused ∈ widgets.live) ↔ (DesktopAct.change (.destroy widget)).Spares desktop := by
  obtain ⟨mirrors, focus⟩ := sound
  have real : widget ≠ 0 := fun none => mirrors.shows.real (none ▸ member)
  have live := (destroyed.mirrors mirrors).members
  rw [WidgetFamily.step, if_neg real, mirrors.members] at live
  rw [DesktopAct.Spares, ← live]
  by_cases none : desktop.focused = 0
  · -- Without a focus nothing can be lost.
    refine iff_of_true (.inl none) fun line linked among => ?_
    rw [none] at linked
    rw [linked.unique (show Visits _ 0 [] from rfl)] at among
    cases among
  · have inside := focus.resolve_left none
    obtain ⟨line, linked, -⟩ := mirrors.rooted.rooted desktop.focused inside
    simp only [or_iff_right none, List.mem_filter, decide_eq_true_eq]
    have way := mirrors.shows.mem_line mirrors.rooted member linked inside
    constructor
    · rintro ⟨-, apart⟩ other also among
      rw [also.unique linked, way] at among
      exact apart among
    · intro spares
      exact ⟨inside, fun below => spares line linked (way.mpr below)⟩

/-- Only destroying takes widgets away. -/
theorem WidgetFamily.mem_step {act : WidgetAct} (other : ∀ widget, act = .destroy widget → widget = 0)
    (member : widget ∈ family.members) : widget ∈ (family.step act).members := by
  -- Only `destroy` takes members away, and destroying null is refused.
  cases act with
  | use call =>
    cases call with
    | create parent bounds made =>
      rw [WidgetFamily.step]
      -- A refused creation adds nobody.
      by_cases none : made = 0
      · rw [if_pos none]
        exact member
      · rw [if_neg none]
        exact List.mem_cons_of_mem _ member
    | addChild parent child =>
      rw [WidgetFamily.step]
      split_ifs <;> exact member
    | removeChild parent child =>
      rw [WidgetFamily.step]
      split_ifs <;> exact member
  | destroy top =>
    rw [WidgetFamily.step, if_pos (other top rfl)]
    exact member
  | setVisible => exact member
  | setEnabled => exact member
  | equip => exact member

/-- An act that spares the focus keeps the desktop sound. -/
theorem DesktopChange.sound {act : DesktopAct} (change : DesktopChange desktop act after) (spares : act.Spares desktop)
    (sound : desktop.Sound family) : ∃ family, after.Sound family := by
  obtain ⟨mirrors, focus⟩ := sound
  cases act with
  | change act =>
    obtain ⟨widgets, changed, rfl⟩ := change
    have next := changed.mirrors mirrors
    refine ⟨_, next, ?_⟩
    by_cases some : ∃ widget, act = .destroy widget ∧ widget ≠ 0
    · obtain ⟨widget, rfl, real⟩ := some
      -- The destroyed widget may be the focused one; `Spares` says that it is not.
      exact (destroy_spares_iff ⟨mirrors, focus⟩ (changed.1.resolve_left real) changed).mpr spares
    · -- Nothing is destroyed here, so a live focus stays live.
      refine focus.imp_right fun inside => ?_
      rw [← next.members]
      have other : ∀ widget, act = .destroy widget → widget = 0 := fun widget same =>
        by_contra fun real => some ⟨widget, same, real⟩
      exact WidgetFamily.mem_step other (mirrors.members ▸ inside)
  | setFocus widget =>
    obtain ⟨allowed, calls, ran⟩ := change
    refine ⟨family, ?_⟩
    rw [uiSetFocus] at ran
    split_ifs at ran with same
    · -- Focusing the focused widget again changes nothing.
      obtain ⟨rfl, -⟩ := Prod.mk.inj (Except.ok.inj ran)
      exact ⟨mirrors, focus⟩
    · -- The handlers ran for live widgets only, and the new focus is the one that was allowed.
      obtain ⟨blurred, -, ran⟩ := bind_eq_ok.mp ran
      obtain ⟨gained, -, ran⟩ := bind_eq_ok.mp ran
      obtain ⟨rfl, -⟩ := Prod.mk.inj (Except.ok.inj ran)
      exact ⟨mirrors, allowed⟩

/--
As long as every destroyed widget spares the focus, the focus can be moved to every widget in use and to none; after
the next widget is destroyed, it can be moved on exactly when that one spared it as well.

Otherwise ui_set_focus reads the handler of the widget in focus from memory that was given back.
-/
theorem focus_moves_iff {heap : WidgetHeap} {acts : List DesktopAct} {last : Desktop}
    (run : Run (fun desktop act after => DesktopChange desktop act after ∧ act.Spares desktop) ⟨⟨heap, []⟩, 0, false⟩
      acts last) :
    (∀ next, next = 0 ∨ next ∈ last.widgets.live → ∃ result, uiSetFocus last next = .ok result) ∧
      ∀ widget ∈ last.widgets.live, ∀ widgets, WidgetChange last.widgets (.destroy widget) widgets →
        ∀ next, next ≠ last.focused → (next = 0 ∨ next ∈ widgets.live) →
          ((∃ result, uiSetFocus { last with widgets := widgets } next = .ok result) ↔
            (DesktopAct.change (.destroy widget)).Spares last) := by
  -- Soundness of the focus is kept by every step that spares it.
  have sound : ∃ family, last.Sound family :=
    run.preserves (fun desktop => ∃ family, desktop.Sound family)
      (fun ⟨_, sound⟩ ⟨changed, spares⟩ => changed.sound spares sound) ⟨_, nothing_mirrors heap, .inl rfl⟩
  obtain ⟨family, sound⟩ := sound
  constructor
  · intro next allowed
    -- The same widget again is answered before anything is read.
    by_cases same : last.focused = next
    · rw [uiSetFocus, if_pos same]
      exact ⟨_, rfl⟩
    · exact (uiSetFocus_iff same).mpr ⟨sound.2, allowed⟩
  · intro widget member widgets destroyed next other allowed
    -- With the widget gone the focus field still names it unless the step spared it.
    have moves := @uiSetFocus_iff { last with widgets := widgets } next other.symm
    rw [moves, and_iff_left allowed]
    exact destroy_spares_iff sound member destroyed

/-- Destroying the only widget leaves its focus behind. -/
theorem lost_focus_dangles : ∃ last : Desktop, last.focused = 1 ∧ ∀ widgets,
    WidgetChange last.widgets (.destroy 1) widgets →
      ¬ ∃ result, uiSetFocus { last with widgets := widgets } 0 = .ok result := by
  obtain ⟨last, run, focused, live, root⟩ : ∃ last : Desktop,
      Run (fun desktop act after => DesktopChange desktop act after ∧ act.Spares desktop)
        ⟨⟨fun _ => newWidget 0 ⟨0, 0, 0, 0⟩, []⟩, 0, false⟩
        [.change (.use (.create 0 ⟨0, 0, 9, 9⟩ 1)), .setFocus 1] last ∧
      last.focused = 1 ∧ 1 ∈ last.widgets.live ∧ (last.widgets.heap 1).parent = 0 := by
    exact ⟨_, .cons ⟨⟨_, ⟨⟨.inl rfl, List.not_mem_nil⟩, Settles.now fun _ => rfl⟩, rfl⟩, trivial⟩ <|
      .cons ⟨⟨.inr List.mem_cons_self, _, rfl⟩, trivial⟩ <| .nil _, rfl, by decide, rfl⟩
  refine ⟨last, focused, fun widgets destroyed moves => ?_⟩
  have spares := ((focus_moves_iff run).2 1 live widgets destroyed 0 (by rw [focused]; decide) (.inl rfl)).mp moves
  -- The widget is on its own way to the root.
  apply spares [1] _ List.mem_cons_self
  rw [focused]
  exact ⟨rfl, by decide, root⟩

end

end MiraOS
