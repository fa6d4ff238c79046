import FlatScript.Builtin.Table

/-!
# The standard table of built-in names

The variables, functions, keywords and callbacks that the engine brings along. Scripts are
compiled against this table unless they come with one of their own.
-/

namespace FlatScript.Builtins

/-- The variables of the engine. -/
def standardVariables : List String := [
  "$ALL_EVENTS", "$ALL_GROUPS", "$CC_NUM", "$CONTROL_PAR_ALLOW_AUTOMATION",
  "$CONTROL_PAR_AUTOMATION_ID", "$CONTROL_PAR_AUTOMATION_NAME", "$CONTROL_PAR_DEFAULT_VALUE",
  "$CONTROL_PAR_HEIGHT", "$CONTROL_PAR_HIDE", "$CONTROL_PAR_KEY_ALT",
  "$CONTROL_PAR_KEY_CONTROL", "$CONTROL_PAR_KEY_SHIFT", "$CONTROL_PAR_LABEL",
  "$CONTROL_PAR_MAX_VALUE", "$CONTROL_PAR_MIN_VALUE", "$CONTROL_PAR_MOUSE_BEHAVIOUR",
  "$CONTROL_PAR_PARENT_PANEL", "$CONTROL_PAR_PICTURE", "$CONTROL_PAR_POS_X",
  "$CONTROL_PAR_POS_Y", "$CONTROL_PAR_TEXT", "$CONTROL_PAR_TEXTLINE", "$CONTROL_PAR_VALUE",
  "$CONTROL_PAR_WIDTH", "$DURATION_QUARTER", "$DURATION_EIGHTH", "$DURATION_SIXTEENTH",
  "$ENGINE_PAR_ATTACK", "$ENGINE_PAR_CUTOFF", "$ENGINE_PAR_DECAY", "$ENGINE_PAR_PAN",
  "$ENGINE_PAR_RELEASE", "$ENGINE_PAR_RESONANCE", "$ENGINE_PAR_SUSTAIN", "$ENGINE_PAR_TUNE",
  "$ENGINE_PAR_VOLUME", "$ENGINE_UPTIME", "$EVENT_ID", "$EVENT_NOTE", "$EVENT_PAR_0",
  "$EVENT_PAR_1", "$EVENT_PAR_2", "$EVENT_PAR_3", "$EVENT_PAR_ALLOW_GROUP", "$EVENT_PAR_NOTE",
  "$EVENT_PAR_TUNE", "$EVENT_PAR_VELOCITY", "$EVENT_PAR_VOLUME", "$EVENT_VELOCITY",
  "$HIDE_PART_BG", "$HIDE_WHOLE_CONTROL", "$KSP_TIMER", "$MARK_1", "$MARK_2", "$MARK_3",
  "$MARK_4", "$NI_BUS_OFFSET", "$NI_CALLBACK_ID", "$NI_CALLBACK_TYPE", "$NI_CB_TYPE_NOTE",
  "$NI_CB_TYPE_RELEASE", "$NI_CB_TYPE_UI_CONTROL", "$NI_CONTROL_PAR_IDX", "$NI_SIGNAL_TYPE",
  "$NI_UI_ID", "$NOTE_HELD", "$PLAYED_VOICES_INST", "$REF_GROUP_IDX", "$SIGNAL_TYPE",
  "$VCC_MONO_AT", "$VCC_PITCH_BEND", "%CC", "%CC_TOUCHED", "%EVENT_PAR", "%GROUPS_AFFECTED",
  "%GROUPS_SELECTED", "%KEY_DOWN", "%KEY_DOWN_OCT", "%POLY_AT", "!NAMES", "~NI_MATH_PI",
  "~NI_MATH_E"]

/-- The functions of the engine. -/
def standardFunctions : List (String × Signature) := [
  ("abs", ⟨["integer"], some "integer"⟩),
  ("add_menu_item", ⟨["ui_menu", "text", "integer"], none⟩),
  ("add_text_line", ⟨["variable", "text"], none⟩),
  ("allow_group", ⟨["integer"], none⟩),
  ("array_equal", ⟨["array", "array"], some "integer"⟩),
  ("by_marks", ⟨["integer"], some "integer"⟩),
  ("change_pan", ⟨["integer", "integer", "integer"], none⟩),
  ("change_tune", ⟨["integer", "integer", "integer"], none⟩),
  ("change_velo", ⟨["integer", "integer"], none⟩),
  ("change_vol", ⟨["integer", "integer", "integer"], none⟩),
  ("dec", ⟨["variable"], none⟩),
  ("disallow_group", ⟨["integer"], none⟩),
  ("exit", ⟨[], none⟩),
  ("fade_in", ⟨["integer", "integer"], none⟩),
  ("fade_out", ⟨["integer", "integer", "integer"], none⟩),
  ("find_group", ⟨["text"], some "integer"⟩),
  ("get_control_par", ⟨["integer", "integer"], some "integer"⟩),
  ("get_control_par_str", ⟨["integer", "integer"], some "text"⟩),
  ("get_engine_par", ⟨["integer", "integer", "integer", "integer"], some "integer"⟩),
  ("get_event_ids", ⟨["array"], none⟩),
  ("get_event_par", ⟨["integer", "integer"], some "integer"⟩),
  ("get_event_par_arr", ⟨["integer", "integer", "integer"], some "integer"⟩),
  ("get_ui_id", ⟨["ui"], some "integer"⟩),
  ("group_name", ⟨["integer"], some "text"⟩),
  ("hide_part", ⟨["ui", "integer"], none⟩),
  ("ignore_controller", ⟨[], none⟩),
  ("ignore_event", ⟨["integer"], none⟩),
  ("ignore_midi", ⟨[], none⟩),
  ("in_range", ⟨["integer", "integer", "integer"], some "integer"⟩),
  ("inc", ⟨["variable"], none⟩),
  ("int_to_real", ⟨["integer"], some "real"⟩),
  ("load_ir_sample", ⟨["text", "integer", "integer"], some "integer"⟩),
  ("make_instr_persistent", ⟨["variable"], none⟩),
  ("make_perfview", ⟨[], none⟩),
  ("make_persistent", ⟨["variable"], none⟩),
  ("message", ⟨["text"], none⟩),
  ("move_control", ⟨["ui", "integer", "integer"], none⟩),
  ("move_control_px", ⟨["ui", "integer", "integer"], none⟩),
  ("note_off", ⟨["integer"], none⟩),
  ("num_elements", ⟨["array"], some "integer"⟩),
  ("play_note", ⟨["integer", "integer", "integer", "integer"], some "integer"⟩),
  ("pow", ⟨["real", "real"], some "real"⟩),
  ("random", ⟨["integer", "integer"], some "integer"⟩),
  ("read_persistent_var", ⟨["variable"], none⟩),
  ("real_to_int", ⟨["real"], some "integer"⟩),
  ("reset_ksp_timer", ⟨[], none⟩),
  ("round", ⟨["real"], some "real"⟩),
  ("search", ⟨["array", "integer"], some "integer"⟩),
  ("set_control_par", ⟨["integer", "integer", "integer"], none⟩),
  ("set_control_par_str", ⟨["integer", "integer", "text"], none⟩),
  ("set_engine_par", ⟨["integer", "integer", "integer", "integer", "integer"], none⟩),
  ("set_event_par", ⟨["integer", "integer", "integer"], none⟩),
  ("set_event_par_arr", ⟨["integer", "integer", "integer", "integer"], none⟩),
  ("set_knob_defval", ⟨["ui_knob", "integer"], none⟩),
  ("set_knob_label", ⟨["ui_knob", "text"], none⟩),
  ("set_knob_unit", ⟨["ui_knob", "integer"], none⟩),
  ("set_listener", ⟨["integer", "integer"], none⟩),
  ("set_script_title", ⟨["text"], none⟩),
  ("set_skin_offset", ⟨["integer"], none⟩),
  ("set_text", ⟨["ui", "text"], none⟩),
  ("set_ui_color", ⟨["integer"], none⟩),
  ("set_ui_height", ⟨["integer"], none⟩),
  ("set_ui_height_px", ⟨["integer"], none⟩),
  ("sh_left", ⟨["integer", "integer"], some "integer"⟩),
  ("sh_right", ⟨["integer", "integer"], some "integer"⟩),
  ("sort", ⟨["array", "integer"], none⟩),
  ("sqrt", ⟨["real"], some "real"⟩),
  ("stop_wait", ⟨["integer", "integer"], none⟩),
  ("wait", ⟨["integer"], none⟩),
  ("wait_async", ⟨["integer"], none⟩),
  ("wait_ticks", ⟨["integer"], none⟩),
  ("pgs_create_key", ⟨["key", "integer"], none⟩),
  ("pgs_get_key_val", ⟨["key", "integer"], some "integer"⟩),
  ("pgs_key_exists", ⟨["key"], some "integer"⟩),
  ("pgs_set_key_val", ⟨["key", "integer", "integer"], none⟩),
  ("pgs_create_str_key", ⟨["key"], none⟩),
  ("pgs_get_str_key_val", ⟨["key"], some "text"⟩),
  ("pgs_str_key_exists", ⟨["key"], some "integer"⟩),
  ("pgs_set_str_key_val", ⟨["key", "text"], none⟩),
  ("SET_CONDITION", ⟨["condition"], none⟩),
  ("RESET_CONDITION", ⟨["condition"], none⟩),
  ("USE_CODE_IF", ⟨["condition"], none⟩),
  ("USE_CODE_IF_NOT", ⟨["condition"], none⟩)]

/-- The keywords of the engine. -/
def standardKeywords : List String := [
  "declare", "const", "polyphonic", "pers", "instpers", "read", "ui_button",
  "ui_file_selector", "ui_knob", "ui_label", "ui_level_meter", "ui_menu", "ui_mouse_area",
  "ui_panel", "ui_slider", "ui_switch", "ui_table", "ui_text_edit", "ui_value_edit",
  "ui_waveform", "ui_wavetable", "ui_xy"]

/-- The callbacks of the engine. -/
def standardCallbacks : List String := [
  "init", "note", "release", "controller", "rpn", "nrpn", "poly_at", "midi_in", "ui_control",
  "ui_update", "pgs_changed", "persistence_changed", "listener", "async_complete"]

/-- **The standard table.** -/
def standard : Builtins where
  vars := standardVariables
  functions := standardFunctions
  keywords := standardKeywords ++ [commonKeyword]
  callbacks := standardCallbacks
  forcedParentheses := [
    "ignore_controller", "ignore_midi", "reset_ksp_timer", "make_perfview"]
  constantReturn := [
    "abs", "by_marks", "get_ui_id", "in_range", "int_to_real", "num_elements", "real_to_int",
    "sh_left", "sh_right"]

end FlatScript.Builtins
