import I2SIOExpander.Basic
import I2SIOExpander.Buffer
import I2SIOExpander.Shiftout
import I2SIOExpander.Ring
import I2SIOExpander.Reset
import I2SIOExpander.Pulser
import I2SIOExpander.Fill
import I2SIOExpander.Bitstream
import I2SIOExpander.Driver
import I2SIOExpander.Lifecycle
