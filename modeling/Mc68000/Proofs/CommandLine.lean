import Mathlib.Data.List.Basic
import Mc68000.Command.Options

namespace Mc68000.Command

variable {fs : List Flag} {ss : List (Setting × String)} {d d' : Draft}

namespace Draft

def after (d : Draft) (fs : List Flag) (ss : List (Setting × String)) : Draft :=
  { d with flags := d.flags ++ fs, settings := d.settings ++ ss }

end Draft

namespace Pending

def after (p : Pending) (fs : List Flag) (ss : List (Setting × String)) : Pending :=
  match p with
  | done d => done (d.after fs ss)
  | value d s => value (d.after fs ss) s

end Pending

def Options.after (o : Options) (fs : List Flag) (ss : List (Setting × String)) : Options :=
  { o with
    output := o.output.or (ss.lookup .output)
    showHex := o.showHex && .noHex ∉ fs
    json := o.json || .json ∈ fs
    verbose := o.verbose || .verbose ∈ fs }

namespace Draft

variable {o : Options}

end Draft

namespace Options

variable {args : List String} {o : Options} {a : String}

end Options

end Mc68000.Command
