import GracefulMusic.Autosave.Resume
import GracefulMusic.Format.Print
import GracefulMusic.Tracks.SortKeys

/-! The options (`options.c`, `command_mode.c`).

Every option has a name, a text that shows its value and a parser for such texts. `set` and
`toggle` change options by name, and `options_exit` writes a `set` line for each. Left out are
the options whose value is a file name that is expanded, a plugin or a floating point number,
those of the plugins, and the sort keys, which have a module of their own. What is redrawn,
sorted or told to other programs after a change is left out too. -/
namespace GracefulMusic.Options
open Commands (skipSpaces optionValue findCommand commands)
open Autosave.Settings (parseCommand)

/-! ### Names -/

inductive AutoExpand where
  | follow | search | selcur
  deriving DecidableEq

/-- The options that are true or false. -/
inductive Flag where
  | autoReshuffle | confirmRun | continues | continueAlbum | smartArtistSort | playLibrary
  | playSorted | displayArtistSortName | repeats | repeatCurrent | replaygainLimit | resume
  | showHidden | autoExpandAlbums (a : AutoExpand) | showAllTracks | showCurrentBitrate
  | showPlaybackPosition | showRemainingTime | setTermTitle | follow | softvol | wrapSearch
  | skipTrackInfo | mouse | mpris | timeShowLeadingZero | stopAfterQueue | pauseOnOutputChange
  deriving DecidableEq

def Flag.name : Flag → String
  | .autoReshuffle => "auto_reshuffle"
  | .confirmRun => "confirm_run"
  | .continues => "continue"
  | .continueAlbum => "continue_album"
  | .smartArtistSort => "smart_artist_sort"
  | .playLibrary => "play_library"
  | .playSorted => "play_sorted"
  | .displayArtistSortName => "display_artist_sort_name"
  | .repeats => "repeat"
  | .repeatCurrent => "repeat_current"
  | .replaygainLimit => "replaygain_limit"
  | .resume => "resume"
  | .showHidden => "show_hidden"
  | .autoExpandAlbums .follow => "auto_expand_albums_follow"
  | .autoExpandAlbums .search => "auto_expand_albums_search"
  | .autoExpandAlbums .selcur => "auto_expand_albums_selcur"
  | .showAllTracks => "show_all_tracks"
  | .showCurrentBitrate => "show_current_bitrate"
  | .showPlaybackPosition => "show_playback_position"
  | .showRemainingTime => "show_remaining_time"
  | .setTermTitle => "set_term_title"
  | .follow => "follow"
  | .softvol => "softvol"
  | .wrapSearch => "wrap_search"
  | .skipTrackInfo => "skip_track_info"
  | .mouse => "mouse"
  | .mpris => "mpris"
  | .timeShowLeadingZero => "time_show_leading_zero"
  | .stopAfterQueue => "stop_after_queue"
  | .pauseOnOutputChange => "pause_on_output_change"

/-- The options that are one of several names. -/
inductive Choice where
  | aaaMode | replaygain | shuffle | startView
  deriving DecidableEq

def Choice.name : Choice → String
  | .aaaMode => "aaa_mode"
  | .replaygain => "replaygain"
  | .shuffle => "shuffle"
  | .startView => "start_view"

/-- The last two names of `shuffle_names` are for backwards compatibility. -/
def Choice.names : Choice → List String
  | .aaaMode => ["all", "artist", "album"]
  | .replaygain =>
    ["disabled", "track", "album", "track-preferred", "album-preferred", "smart"]
  | .shuffle => ["off", "tracks", "albums", "false", "true"]
  | .startView => ResumeFile.viewNames

inductive Number where
  | scrollOffset | rewindOffset | treeWidthPercent | treeWidthMax
  deriving DecidableEq

def Number.name : Number → String
  | .scrollOffset => "scroll_offset"
  | .rewindOffset => "rewind_offset"
  | .treeWidthPercent => "tree_width_percent"
  | .treeWidthMax => "tree_width_max"

def Number.minval : Number → Int
  | .scrollOffset => 0
  | .rewindOffset => -1
  | .treeWidthPercent => 1
  | .treeWidthMax => 0

def Number.maxval : Number → Int
  | .scrollOffset => 9999
  | .rewindOffset => 9999
  | .treeWidthPercent => 100
  | .treeWidthMax => 9999

inductive Charset where
  | id3 | icecast
  deriving DecidableEq

def Charset.name : Charset → String
  | .id3 => "id3_default_charset"
  | .icecast => "icecast_default_charset"

/-- `enum format_id` -/
inductive FormatId where
  | clippedText | current | currentAlt | statusline | playlist | playlistAlt | playlistVa
  | title | titleAlt | trackwin | trackwinAlbum | trackwinAlt | trackwinVa | treewin
  | treewinArtist
  deriving DecidableEq

def FormatId.name : FormatId → String
  | .clippedText => "format_clipped_text"
  | .current => "format_current"
  | .currentAlt => "altformat_current"
  | .statusline => "format_statusline"
  | .playlist => "format_playlist"
  | .playlistAlt => "altformat_playlist"
  | .playlistVa => "format_playlist_va"
  | .title => "format_title"
  | .titleAlt => "altformat_title"
  | .trackwin => "format_trackwin"
  | .trackwinAlbum => "format_trackwin_album"
  | .trackwinAlt => "altformat_trackwin"
  | .trackwinVa => "format_trackwin_va"
  | .treewin => "format_treewin"
  | .treewinArtist => "format_treewin_artist"

def colorNames : List String := [
  "color_cmdline_bg", "color_cmdline_fg", "color_error", "color_info", "color_separator",
  "color_statusline_bg", "color_statusline_fg", "color_titleline_bg", "color_titleline_fg",
  "color_win_bg", "color_win_cur", "color_win_cur_sel_bg", "color_win_cur_sel_fg",
  "color_win_dir", "color_win_fg", "color_win_inactive_cur_sel_bg",
  "color_win_inactive_cur_sel_fg", "color_win_inactive_sel_bg", "color_win_inactive_sel_fg",
  "color_win_sel_bg", "color_win_sel_fg", "color_win_title_bg", "color_win_title_fg",
  "color_trackwin_album_bg", "color_trackwin_album_fg"]

def attrNames : List String := [
  "color_cmdline_attr", "color_statusline_attr", "color_titleline_attr", "color_win_attr",
  "color_win_cur_sel_attr", "color_cur_sel_attr", "color_win_inactive_cur_sel_attr",
  "color_win_inactive_sel_attr", "color_win_sel_attr", "color_win_title_attr",
  "color_trackwin_album_attr", "color_win_cur_attr"]

/-- `struct cmus_opt`, as far as there is one for each option. -/
inductive Opt where
  | flag (f : Flag)
  | choice (c : Choice)
  | number (n : Number)
  | bufferSeconds
  | charset (c : Charset)
  | passwd
  | softvolState
  | libAddFilter
  | format (f : FormatId)
  | color (i : Fin colorNames.length)
  | attr (i : Fin attrNames.length)
  deriving DecidableEq

def Opt.word : Opt → String
  | .flag f => f.name
  | .choice c => c.name
  | .number n => n.name
  | .bufferSeconds => "buffer_seconds"
  | .charset c => c.name
  | .passwd => "passwd"
  | .softvolState => "softvol_state"
  | .libAddFilter => "lib_add_filter"
  | .format f => f.name
  | .color i => colorNames.get i
  | .attr i => attrNames.get i

def Opt.name (opt : Opt) : Text := ascii opt.word

def simpleOptions : List Opt := [
  .choice .aaaMode, .flag .autoReshuffle, .bufferSeconds, .number .scrollOffset,
  .number .rewindOffset, .flag .confirmRun, .flag .continues, .flag .continueAlbum,
  .flag .smartArtistSort, .charset .id3, .charset .icecast, .passwd, .flag .playLibrary,
  .flag .playSorted, .flag .displayArtistSortName, .flag .repeats, .flag .repeatCurrent,
  .choice .replaygain, .flag .replaygainLimit, .flag .resume, .flag .showHidden,
  .flag (.autoExpandAlbums .follow), .flag (.autoExpandAlbums .search),
  .flag (.autoExpandAlbums .selcur), .flag .showAllTracks, .flag .showCurrentBitrate,
  .flag .showPlaybackPosition, .flag .showRemainingTime, .flag .setTermTitle,
  .choice .shuffle, .flag .follow, .flag .softvol, .softvolState, .flag .wrapSearch,
  .flag .skipTrackInfo, .flag .mouse, .flag .mpris, .flag .timeShowLeadingZero, .libAddFilter,
  .choice .startView, .flag .stopAfterQueue, .number .treeWidthPercent, .number .treeWidthMax,
  .flag .pauseOnOutputChange]

def formatIds : List FormatId := [
  .clippedText, .current, .currentAlt, .statusline, .playlist, .playlistAlt, .playlistVa, .title,
  .titleAlt, .trackwin, .trackwinAlbum, .trackwinAlt, .trackwinVa, .treewin, .treewinArtist]

/-- `option_add`: before the first option with a greater name. -/
def optionAdd (opt : Opt) : List Opt → List Opt
  | [] => [opt]
  | o :: rest => if strcmp opt.name o.name < 0 then opt :: o :: rest else o :: optionAdd opt rest

/-- The options in the order in which `options_add` adds them. -/
def addedOptions : List Opt :=
  simpleOptions ++ formatIds.map .format ++ (List.finRange _).map .color ++
    (List.finRange _).map .attr

def optionHead : List Opt := addedOptions.foldl (fun head opt => optionAdd opt head) []

def optionFind (name : Text) : Option Opt := optionHead.find? fun opt => strcmp name opt.name = 0

/-! ### Values -/

/-- The attributes of a color, as the bits of an `int`. -/
structure Attr where
  standout : Bool := false
  underline : Bool := false
  reverse : Bool := false
  blink : Bool := false
  bold : Bool := false
  deriving DecidableEq

/-- What is kept for an option: the buffer in chunks, an unset password as `none`, an unset
filter as the empty text. -/
abbrev Opt.Value : Opt → Type
  | .flag _ => Bool
  | .choice _ | .number _ | .color _ => Int
  | .bufferSeconds => Nat
  | .charset _ | .libAddFilter | .format _ => Text
  | .passwd => Option Text
  | .softvolState => Int × Int
  | .attr _ => Attr

abbrev Values := (opt : Opt) → opt.Value

def boolNames : List String := ["false", "true"]

def colorEnumNames : List String := [
  "default", "black", "red", "green", "yellow", "blue", "magenta", "cyan", "gray", "darkgray",
  "lightred", "lightgreen", "lightyellow", "lightblue", "lightmagenta", "lightcyan", "white"]

def secondSize : Nat := 44100 * 16 / 8 * 2

def chunkSize : Nat := 12 * 840 * 6

/-- The name of an index. -/
def nameAt (names : List String) (i : Int) : Text := ((names[i.toNat]?).map ascii).getD []

def getColor (val : Int) : Text :=
  if val < 16 then nameAt colorEnumNames (val + 1) else printInt val

def getAttr (attr : Attr) : Text :=
  if attr = {} then ascii "default"
  else
    let word (bit : Bool) (text : String) := if bit then ascii text else []
    (word attr.standout "standout|" ++ word attr.underline "underline|" ++
      word attr.reverse "reverse|" ++ word attr.blink "blink|" ++ word attr.bold "bold|").dropLast

/-- The text that `get` shows, before it is cut to the size of the buffer. -/
def Opt.shown : (opt : Opt) → opt.Value → Text
  | .flag _, val => nameAt boolNames val.toNat
  | .choice c, val => nameAt c.names val
  | .number _, val => printInt val
  | .bufferSeconds, chunks => decimal ((chunks * chunkSize + secondSize / 2) / secondSize)
  | .charset _, val | .libAddFilter, val | .format _, val => val
  | .passwd, val => val.getD []
  | .softvolState, (l, r) => printInt l ++ ch ' ' :: printInt r
  | .color _, val => getColor val
  | .attr _, val => getAttr val

/-- `get`, into a buffer of `OPTION_MAX_SIZE`. -/
def Values.get (s : Values) (opt : Opt) : Text := (opt.shown (s opt)).take (optionMaxSize - 1)

/-! ### Parsers

An error is the message, where there is one. -/

def rangeText (minval maxval : Int) : Text :=
  ascii "integer in range " ++ printInt minval ++ ascii ".." ++ printInt maxval ++ ascii " expected"

def parseInt (buf : Text) (minval maxval : Int) : Except (Option Text) Int :=
  let (tmp, isInt) := strToInt buf
  if !isInt ∨ tmp < minval ∨ tmp > maxval then .error (rangeText minval maxval) else .ok tmp

def parseEnum (buf : Text) (minval maxval : Int) (names : List String) :
    Except (Option Text) Int :=
  match ResumeFile.parseEnum buf minval maxval names with
  | some val => .ok val
  | none => .error (ascii "name or " ++ rangeText minval maxval)

def parseBool (buf : Text) : Except (Option Text) Bool :=
  (parseEnum buf 0 1 boolNames).map fun val => val ≠ 0

/-- `SHUFFLE_FALSE` and `SHUFFLE_TRUE` are turned into other modes. -/
def parseShuffle (buf : Text) : Except (Option Text) Int :=
  (parseEnum buf 0 4 Choice.shuffle.names).map fun tmp =>
    if tmp = 3 then 0 else if tmp = 4 then 1 else tmp

def parseSoftvolState (buf : Text) : Except (Option Text) (Int × Int) :=
  let buffer := buf.take (optionMaxSize - 1)
  let (l, lInt) := strToInt (buffer.takeWhile (· ≠ ch ' '))
  let (r, rInt) := strToInt (skipSpaces (buffer.dropWhile (· ≠ ch ' ')))
  if ch ' ' ∉ buffer ∨ !lInt ∨ l < 0 ∨ l > 100 ∨ !rInt ∨ r < 0 ∨ r > 100 then
    .error (ascii "two integers in range 0..100 expected")
  else .ok (l, r)

def parsePasswd (buf : Text) : Except (Option Text) (Option Text) :=
  if buf.length = 0 then .ok none
  else if buf.length < 6 then .error (ascii "unsafe password")
  else .ok buf

/-- `A_NORMAL` is no bit. -/
def Attr.or (attr : Attr) (current : Text) : Attr :=
  if current = ascii "default" then attr
  else if current = ascii "standout" then {attr with standout := true}
  else if current = ascii "underline" then {attr with underline := true}
  else if current = ascii "reverse" then {attr with reverse := true}
  else if current = ascii "blink" then {attr with blink := true}
  else if current = ascii "bold" then {attr with bold := true}
  else attr

/-- The loop of `set_attr`: the bytes from `i` on, where a word starts and its length. The next
word starts at the bar, and has the length it has behind the bar. -/
def setAttrLoop (buf : Text) : Text → Nat → Nat → Nat → Attr → Attr
  | [], _, offset, length, attr => attr.or ((buf.drop offset).take length)
  | c :: rest, i, offset, length, attr =>
    if c = ch '|' then
      setAttrLoop buf rest (i + 1) i 0 (attr.or ((buf.drop offset).take length))
    else setAttrLoop buf rest (i + 1) offset (length + 1) attr

def setAttr (buf : Text) : Attr := setAttrLoop buf buf 0 0 0 {}

/-! ### The check of a format -/

/-- The entries of `track_fopts`: letter, name, and whether zeros may pad it. -/
def trackFoptNames : List (String × String × Bool) := [
  ("A", "albumartist", false), ("a", "artist", false), ("l", "album", false),
  ("D", "discnumber", true), ("n", "tracknumber", true), ("t", "title", false),
  ("X", "play_count", false), ("y", "date", true), ("", "maxdate", true),
  ("", "originaldate", true), ("g", "genre", false), ("c", "comment", false),
  ("d", "duration", false), ("", "duration_sec", true), ("", "albumduration", false),
  ("", "bitrate", false), ("", "codec", false), ("", "codec_profile", false),
  ("f", "path", false), ("F", "filename", false), ("", "rg_track_gain", false),
  ("", "rg_track_peak", false), ("", "rg_album_gain", false),
  ("", "rg_album_peak", false), ("", "arranger", false), ("", "composer", false),
  ("", "conductor", false), ("", "lyricist", false), ("", "performer", false),
  ("", "remixer", false), ("", "label", false), ("", "publisher", false),
  ("", "work", false), ("", "opus", false), ("", "partnumber", false),
  ("", "part", false), ("", "subtitle", false), ("", "media", false),
  ("", "va", false), ("", "status", false), ("", "position", false),
  ("", "position_sec", true), ("", "total", false), ("", "volume", true),
  ("", "lvolume", true), ("", "rvolume", true), ("", "buffer", true),
  ("", "repeat", false), ("", "continue", false), ("", "follow", false),
  ("", "shuffle", false), ("", "playlist_mode", false), ("", "bpm", false)]

/-- What the check of a format needs of `track_fopts`; it reads no value. -/
def trackFopts : List (Format.FormatOption Unit) :=
  trackFoptNames.map fun (letter, name, padZero) =>
    ⟨.str [], true, padZero, (ascii letter).headD 0, ascii name⟩

variable (env : Expr.Env)

/-- `track_format_valid`. A format that is read beyond its end is not valid. -/
def trackFormatValid (format : Text) : Bool :=
  match Format.formatValid env trackFopts format with
  | .ok valid => valid
  | .error _ => false

/-! ### Changes -/

/-- What `set` writes, for all options but those below. -/
def Opt.parse : (opt : Opt) → Text → Except (Option Text) opt.Value
  | .flag _, buf => parseBool buf
  | .choice .aaaMode, buf => parseEnum buf 0 2 Choice.aaaMode.names
  | .choice .replaygain, buf => parseEnum buf 0 5 Choice.replaygain.names
  | .choice .shuffle, buf => parseShuffle buf
  | .choice .startView, buf => parseEnum buf 0 (ResumeFile.nrViews - 1) Choice.startView.names
  | .number n, buf => parseInt buf n.minval n.maxval
  | .bufferSeconds, buf => (parseInt buf 1 300).map fun sec =>
    (sec.toNat * secondSize + chunkSize / 2) / chunkSize
  | .charset _, buf => .ok buf
  | .passwd, buf => parsePasswd buf
  | .softvolState, buf => parseSoftvolState buf
  | .libAddFilter, buf =>
    if buf.length ≠ 0 then
      match Expr.exprParse env buf with
      | .ok _ => .ok buf
      | .error _ => .error none
    else .ok buf
  -- `set_clipped_text_format` does not check
  | .format .clippedText, buf => .ok buf
  | .format _, buf =>
    if trackFormatValid env buf then .ok buf else .error (ascii "invalid format string")
  | .color _, buf => parseEnum buf (-1) 255 colorEnumNames
  | .attr _, buf => .ok (setAttr buf)

namespace Values

def put (s : Values) (opt : Opt) (val : opt.Value) : Values := Function.update s opt val

mutual

/-- `set_auto_expand_albums_follow_int` and the two others. -/
def setAutoExpandAlbumsInt : Nat → AutoExpand → Bool → Values → Values
  | 0, _, _, s => s
  | fuel + 1, a, value, s =>
    let s := s.put (.flag (.autoExpandAlbums a)) value
    if !s (.flag (.autoExpandAlbums a)) && !s (.flag .showAllTracks) then
      setShowAllTracksInt fuel true s
    else s

def setShowAllTracksInt : Nat → Bool → Values → Values
  | 0, _, s => s
  | fuel + 1, value, s =>
    if s (.flag .showAllTracks) = value then s
    else
      let s := s.put (.flag .showAllTracks) value
      if !s (.flag .showAllTracks) then
        let on (a : AutoExpand) (s : Values) : Values :=
          if !s (.flag (.autoExpandAlbums a)) then setAutoExpandAlbumsInt fuel a true s else s
        on .selcur (on .search (on .follow s))
      else s

end

/-- The two functions call each other once at most, and that call does not call back. -/
def callDepth : Nat := 2

/-- A value that does not parse counts as false here. -/
def orFalse (set : Bool → Values) : Except (Option Text) Bool → Values × Option Text
  | .ok value => (set value, none)
  | .error msg => (set false, msg)

/-- `set`, with the message. -/
def set (s : Values) (opt : Opt) (buf : Text) : Values × Option Text :=
  match opt with
  | .flag (.autoExpandAlbums a) =>
    orFalse (fun value => setAutoExpandAlbumsInt callDepth a value s) (parseBool buf)
  | .flag .showAllTracks =>
    orFalse (fun value => setShowAllTracksInt callDepth value s) (parseBool buf)
  | opt =>
    match opt.parse env buf with
    | .ok val => (s.put opt val, none)
    | .error msg => (s, msg)

def toggleFlag (s : Values) (f : Flag) : Values := s.put (.flag f) !s (.flag f)

/-- The playlist has no sorted view. -/
def togglePlaySorted (s : Values) : Values :=
  let s := s.toggleFlag .playSorted
  if s (.flag .playSorted) then s.put (.flag .playLibrary) true else s

def toggleAaaMode (s : Values) : Values :=
  let s := s.put (.flag .playLibrary) true
  s.put (.choice .aaaMode) ((s (.choice .aaaMode) + 1) % 3)

def toggleReplaygain (s : Values) : Values :=
  s.put (.choice .replaygain) ((s (.choice .replaygain) + 1) % 6)

/-- Albums are not shuffled in the playlist. -/
def toggleShuffle (s : Values) : Values :=
  let s := s.put (.choice .shuffle) ((s (.choice .shuffle) + 1) % 3)
  if !s (.flag .playLibrary) && s (.choice .shuffle) = 2 then s.put (.choice .shuffle) 0 else s

/-- The callback of `toggle`, where there is one. -/
def toggle (s : Values) : Opt → Option Values
  | .flag (.autoExpandAlbums a) =>
    some (setAutoExpandAlbumsInt callDepth a (!s (.flag (.autoExpandAlbums a))) s)
  | .flag .showAllTracks => some (setShowAllTracksInt callDepth (!s (.flag .showAllTracks)) s)
  | .flag .playSorted => some s.togglePlaySorted
  | .flag f => some (s.toggleFlag f)
  | .choice .aaaMode => some s.toggleAaaMode
  | .choice .replaygain => some s.toggleReplaygain
  | .choice .shuffle => some s.toggleShuffle
  | _ => none

/-! ### Commands -/

def optionSet (s : Values) (name value : Text) : Values × Option Text :=
  (optionFind name).elim (s, ascii "no such option " ++ name) fun opt => s.set env opt value

/-- Without a value `set` only shows the option. -/
def cmdSet (s : Values) (arg : Text) : Values :=
  (optionValue arg).elim s fun p => (s.optionSet env p.1 p.2).1

def cmdToggle (s : Values) (arg : Text) : Values :=
  ((optionFind arg).bind s.toggle).getD s

/-- The two commands that change options by name. -/
def runFound (s : Values) (arg : Text) (c : Commands.Command) : Values :=
  if c.name = ascii "set" then s.cmdSet env arg
  else if c.name = ascii "toggle" then s.cmdToggle arg
  else s

def runCommand (s : Values) (buf : Text) : Values :=
  match parseCommand buf with
  | some (cmd, some arg) =>
    (findCommand cmd commands).toOption.elim s (s.runFound env arg)
  | _ => s

def setLine (s : Values) (opt : Opt) : Text := ascii "set " ++ opt.name ++ ch '=' :: s.get opt

/-- The options in the file that `options_exit` writes. -/
def optionsExit (s : Values) : Text := optionHead.flatMap fun opt => s.setLine opt ++ [ch '\n']

/-- `source_file` -/
def sourceFile (s : Values) (text : Text) : Values :=
  (Pl.bufferForEachLine text).foldl (runCommand env) s

end Values

/-! ### Defaults -/

/-- `COLOR_BLACK` and the others, and `BRIGHT`. -/
def colors : List Int := [
  -1, -1, 1 + 8, 3 + 8, 4, 7, 0, 4, 7 + 8, -1, 3 + 8, 4, 3 + 8, 4 + 8, -1, 7, 3 + 8, 7, 0, 4,
  7 + 8, 4, 7 + 8, -1, -1]

/-- The texts of `str_defaults`; that of the clipped text is not ASCII. -/
def FormatId.texts : FormatId → List String
  | .clippedText => []
  | .currentAlt => [" %F "]
  | .current => [" %a - %l%! - %n. %t%= %y "]
  | .statusline => [
    " %\x7bstatus\x7d %\x7b?show_playback_position?%\x7bposition\x7d ",
    "%\x7b?duration?/ %\x7bduration\x7d \x7d?%\x7b?duration?%\x7bduration\x7d \x7d\x7d",
    "- %\x7btotal\x7d %\x7b?bpm>0?at %\x7bbpm\x7d BPM \x7d",
    "%\x7b?volume>=0?vol: %\x7b?lvolume!=rvolume?%\x7blvolume\x7d,%\x7brvolume\x7d ",
    "?%\x7bvolume\x7d \x7d\x7d",
    "%\x7b?stream?buf: %\x7bbuffer\x7d \x7d",
    "%\x7b?show_current_bitrate & bitrate>=0? %\x7bbitrate\x7d kbps \x7d",
    "%=",
    "%\x7b?repeat_current?repeat current?%\x7b?play_library?%\x7bplaylist_mode\x7d from ",
    "%\x7b?play_sorted?sorted \x7dlibrary?playlist\x7d\x7d",
    " | %1\x7bcontinue\x7d%1\x7bfollow\x7d%1\x7brepeat\x7d%1\x7bshuffle\x7d "]
  | .playlistAlt => [" %f%= %d "]
  | .playlist => [" %-21%a %3n. %t%= %y %d %\x7b?X!=0?%3X ?    \x7d"]
  | .playlistVa => [" %-21%A %3n. %t (%a)%= %y %d %\x7b?X!=0?%3X ?    \x7d"]
  | .titleAlt => ["%f"]
  | .title => ["%a - %l - %t (%y)"]
  | .trackwinAlbum => [" %l %= %\x7balbumduration\x7d "]
  | .trackwinAlt => [" %f%= %d "]
  | .trackwin => ["%3n. %t%= %y %d "]
  | .trackwinVa => ["%3n. %t (%a)%= %y %d "]
  | .treewin => ["  %l"]
  | .treewinArtist => ["%a"]

/-- `str_defaults` -/
def FormatId.default : FormatId → Text
  | .clippedText => [0xE2, 0x80, 0xA6] -- an ellipsis
  | f => f.texts.flatMap ascii

def Flag.default : Flag → Bool
  | .autoReshuffle | .confirmRun | .continues | .continueAlbum | .smartArtistSort
  | .playLibrary | .replaygainLimit | .autoExpandAlbums _ | .showAllTracks
  | .showPlaybackPosition | .setTermTitle | .wrapSearch | .mpris | .timeShowLeadingZero => true
  | _ => false

def Number.default : Number → Int
  | .scrollOffset => 2
  | .rewindOffset => 5
  | .treeWidthPercent => 33
  | .treeWidthMax => 0

/-- What the program starts with; `player_init` has a buffer for ten seconds. -/
def defaults : Values
  | .flag f => f.default
  | .choice _ => 0
  | .number n => n.default
  | .bufferSeconds => 10 * 44100 * 16 / 8 * 2 / chunkSize
  | .charset _ => ascii "ISO-8859-1"
  | .passwd => none
  | .softvolState => (0, 0)
  | .libAddFilter => []
  | .format f => f.default
  | .color i => colors.getD i 0
  | .attr i => if i.val = 10 then {bold := true} else {}

end GracefulMusic.Options
